import Montage.MontageHashTable.Sections

namespace Montage.MontageHashTable
open Library Recoverable EpochSys Function List Option
open Recoverable.Memory hiding call
open ToBeFreed (Kind)

variable {m m' : Memory} {a b p x : Addr} {c e : Nat} {q : Option Addr}

/-- A payload that is the newest version of its id in the epochs up to `e`. -/
@[mk_iff]
structure Snapshot (m : Memory) (e : Nat) (p : Addr) : Prop where
  allocated : p ∈ m.allocated
  tagged : (m.heap p).epoch ≠ nullEpoch
  epoch : (m.heap p).epoch ≤ e
  blktype : (m.heap p).blktype = .alloc ∨ (m.heap p).blktype = .update
  newest : ∀ x ∈ m.allocated, x ≠ p → (m.heap x).id = (m.heap p).id → (m.heap x).epoch ≤ e →
    (m.heap x).epoch < (m.heap p).epoch

/-- The blocks of an id are of different epochs; an `ALLOC` block is the first and a `DELETE` block
the last. -/
@[mk_iff]
structure Versions (m : Memory) : Prop where
  types : ∀ x ∈ m.allocated, (m.heap x).epoch = nullEpoch ∧ (m.heap x).blktype = .init ∨
    (m.heap x).epoch ≠ nullEpoch ∧
      ((m.heap x).blktype = .alloc ∨ (m.heap x).blktype = .update ∨ (m.heap x).blktype = .delete)
  order : ∀ x ∈ m.allocated, ∀ y ∈ m.allocated, x ≠ y → (m.heap x).id = (m.heap y).id →
    (m.heap x).epoch ≠ nullEpoch → (m.heap x).epoch ≤ (m.heap y).epoch →
    (m.heap x).epoch < (m.heap y).epoch ∧ (m.heap x).blktype ≠ .delete ∧ (m.heap y).blktype ≠ .alloc

theorem Current.snapshot (hp : Current m c p) (he : c ≤ e) : Snapshot m e p :=
  ⟨hp.allocated,hp.tagged,hp.epoch.trans he,hp.blktype,fun x hx hne hid _ => hp.newest x hx hne hid⟩

theorem Current.only (hb : Current m c b) (he : c ≤ e) (hp : Snapshot m e p)
    (hid : (m.heap p).id = (m.heap b).id) : p = b := by
  by_contra hne
  have h := hb.newest p hp.allocated hne hid
  have h' := hp.newest b hb.allocated (Ne.symm hne) hid.symm (hb.epoch.trans he)
  exact lt_asymm h h'

/-- What an operation of epoch `c` does with the versions of its payload `b`: only blocks of this
epoch come, go or change, and in the end `q` is what can be seen of them. -/
structure Replaces (m : Memory) (c : Nat) (b : Addr) (q : Option Addr) (m' : Memory) : Prop where
  same : ∀ x ∈ m.allocated, x ≠ b ∨ (m.heap b).epoch ≠ c → x ∈ m'.allocated ∧ m'.heap x = m.heap x
  new : ∀ x ∈ m'.allocated, x ∈ m.allocated ∧ m'.heap x = m.heap x ∨
    (m'.heap x).id = (m.heap b).id ∧ (m'.heap x).epoch = c
  result : ∀ e p, c ≤ e → (q = some p ↔ Snapshot m' e p ∧ (m'.heap p).id = (m.heap b).id)
  versions : Versions m'

section
variable (hr : Replaces m c b q m')
include hr

theorem Replaces.early (he : e < c) : Snapshot m' e p ↔ Snapshot m e p := by
  grind [snapshot_iff,hr.same,hr.new]

theorem Replaces.late (hb : Current m c b) (he : c ≤ e) :
    Snapshot m' e p ↔ Snapshot m e p ∧ p ≠ b ∨ q = some p := by
  have := hb.only (p := p) he
  have := hr.result e p he
  grind [snapshot_iff,hr.same,hr.new]

end

/-- A newer block of its id hides `b` or takes its place. -/
theorem add_replaces (hv : Versions m) (hb : Current m c b) (hlt : (m.heap b).epoch < c)
    (ha : a ∉ m.allocated) (hall : m'.allocated = insert a m.allocated)
    (hheap : ∀ x, x ≠ a → m'.heap x = m.heap x) (hepoch : (m'.heap a).epoch = c)
    (hid : (m'.heap a).id = (m.heap b).id)
    (htype : (m'.heap a).blktype = .delete ∧ q = none ∨ (m'.heap a).blktype = .update ∧ q = some a) :
    Replaces m c b q m' := by
  have hbefore : ∀ x ∈ m.allocated, (m.heap x).id = (m.heap b).id → (m.heap x).epoch < c := by
    intro x hx hxid
    by_cases hxb : x = b
    · exact hxb ▸ hlt
    · exact (hb.newest x hx hxb hxid).trans hlt
  have hc : c ≠ nullEpoch := by grind [nullEpoch]
  have hold := hb.blktype
  have hmem := hb.allocated
  refine ⟨by grind,by grind,?_,?_⟩
  · intro e p he
    grind [snapshot_iff]
  · grind [versions_iff,hb.newest]

theorem free_pblk_replaces (hv : Versions m) (hb : Current m c b) (ha : a ∉ m.allocated)
    (h : freePblk m.heap a b c = .ok is) : Replaces m c b none (m.perform is) := by
  rcases free_pblk_ok h with ⟨hcase,rfl⟩ | ⟨hc,htype,rfl⟩ | ⟨-,hna,hnu,-⟩ | ⟨-,hlt,rfl⟩
  · -- an `ALLOC` block of this epoch is the only version
    obtain ⟨hc,halloc⟩ := hcase.resolve_left hb.tagged
    have hall : (m.perform (deletePblk b c)).allocated = m.allocated.erase b := by
      unfold deletePblk
      split <;> rfl
    have hsame := fun x (hx : x ≠ b) => (delete_pblk_same (m := m) (c := c) hx).heap
    have hmem := hb.allocated
    refine ⟨by grind,by grind,?_,by grind [versions_iff]⟩
    intro e p he
    grind [snapshot_iff,versions_iff,hb.newest]
  · have hheap : ∀ x, x ≠ b → (m.perform [.setType b .delete,.registerFree b c]).heap x = m.heap x :=
      fun x hx => by simp [perform,access,Instr.write,hx]
    have hself : (m.perform [.setType b .delete,.registerFree b c]).heap b =
        { m.heap b with blktype := .delete } := by simp [perform,access,Instr.write]
    have hall : (m.perform [.setType b .delete,.registerFree b c]).allocated = m.allocated := rfl
    have hmem := hb.allocated
    have htag := hb.tagged
    refine ⟨by grind,by grind,?_,by grind [versions_iff,hb.newest]⟩
    intro e p he
    have := hb.newest p
    grind [snapshot_iff]
  · exact absurd hb.blktype (not_or.mpr ⟨hna,hnu⟩)
  · refine add_replaces hv hb hlt ha rfl ?_ ?_ ?_ (.inl ⟨?_,rfl⟩)
    · intro x hx
      simp [perform,access,copyPblk,Instr.write,hx]
    all_goals simp [perform,access,copyPblk,Instr.write]

theorem set_val_replaces (hv : Versions m) (hb : Current m c b) (ha : a ∉ m.allocated)
    (h : openwritePblk m.heap a b c = .ok (is,r)) :
    Replaces m c b (some r) (m.perform (is ++ registerUpdatePblk r c)) := by
  have hperform : m.perform (is ++ registerUpdatePblk r c) = m.perform is := by
    rw [Memory.perform_append,registerUpdatePblk]
    split <;> rfl
  rw [hperform]
  rcases openwrite_pblk_ok h with ⟨-,rfl,rfl⟩ | ⟨hlt,rfl,rfl⟩
  · refine ⟨fun x hx _ => ⟨hx,rfl⟩,fun x hx => .inl ⟨hx,rfl⟩,?_,hv⟩
    intro e p he
    rw [some.injEq]
    constructor
    · rintro rfl
      exact ⟨hb.snapshot he,rfl⟩
    · rintro ⟨hp,hid⟩
      exact (hb.only he hp hid).symm
  · refine add_replaces hv hb hlt ha rfl ?_ ?_ ?_ (.inr ⟨?_,rfl⟩)
    · intro x hx
      simp [perform,access,copyPblk,Instr.write,hx]
    all_goals simp [perform,access,copyPblk,Instr.write]

section Bodies
variable {K V : Type} [LinearOrder K] {hash : K → Nat} {idxSize : Nat}

def Keyed (w : Section K V) (key : K) (p : Addr) : Prop := p ∈ w.bucket ∧ (w.content p).key = key

/-- What a body does to the snapshots: those of earlier epochs stay, in the later ones its key has
the nodes that the bucket has for it. -/
structure Shows (c : Nat) (key : K) (newNode : Option Addr) (w w' : Section K V) : Prop where
  early : ∀ e p, e < c → (Snapshot w'.mem e p ↔ Snapshot w.mem e p)
  late : ∀ e p, c ≤ e → (Snapshot w'.mem e p ↔
    Snapshot w.mem e p ∧ ¬Keyed w key p ∧ newNode ≠ some p ∨ Keyed w' key p)
  content : ∀ p ∈ w.mem.allocated, ¬Keyed w key p ∨ (w.mem.heap p).epoch ≠ c →
    w'.content p = w.content p
  versions : Versions w'.mem

variable {w w' : Section K V} {al : Allocator} {key : K} {val : V} {b r curr newNode : Addr}
  {before after : List Addr} {c i : Nat}

omit [LinearOrder K] in
theorem delete_replaces (h : w.delete al b = .ok w') (hepoch : w.thread.epoch = some c)
    (hv : Versions w.mem) (hb : Current w.mem c b) :
    ∃ m', Replaces w.mem c b none m' ∧ w' = { w with mem := m' } := by
  obtain ⟨⟨m',th⟩,hcall,h⟩ := of_bind_ok h
  cases h
  obtain ⟨⟨is,th'⟩,hdelete,hcall⟩ := of_bind_ok hcall
  cases hcall
  simp only [pdelete,hepoch] at hdelete
  obtain ⟨is',hfree,hdelete⟩ := of_bind_ok hdelete
  cases hdelete
  exact ⟨_,free_pblk_replaces hv hb (al.fresh_not_mem _) hfree,rfl⟩

theorem keyed_equal (hs : Sorted w.content (before ++ curr :: after))
    (hkey : (w.content curr).key = key) (p : Addr) :
    p ∈ before ++ curr :: after ∧ (w.content p).key = key ↔ p = curr := by
  obtain ⟨-,hb,ha⟩ := hs.around
  grind

section
variable (hf : Fit hash idxSize i c w) (hv : Versions w.mem)
include hf hv

theorem unchanged_shows : Shows c key none w w := by
  refine ⟨fun _ _ _ => .rfl,?_,fun _ _ _ => rfl,hv⟩
  intro e p he
  have := fun hp => (hf.nodes p hp).snapshot he
  grind [Keyed]

omit hf in
theorem link_shows (hown : Owns c w key val newNode) (hlist : w.bucket = before ++ after)
    (hb : ∀ p ∈ before, (w.content p).key < key) (ha : ∀ p ∈ after, key < (w.content p).key) :
    Shows c key (some newNode) w { w with bucket := before ++ newNode :: after } := by
  refine ⟨fun _ _ _ => .rfl,?_,fun _ _ _ => rfl,hv⟩
  intro e p he
  have := hown.current.snapshot he
  have := hown.content
  grind [Keyed]

theorem remove_shows (hepoch : w.thread.epoch = some c) (h : w.remove al key = .ok (w',ret)) :
    Shows c key none w w' := by
  unfold Section.remove at h
  split at h
  next before curr after hsearch =>
    obtain ⟨hlist,hkey⟩ := search_equal hsearch
    rw [nil_append] at hlist
    have hcurr := (hf.split hlist).1
    obtain ⟨w1,hdelete,h⟩ := of_bind_ok h
    cases h
    obtain ⟨m',hr,rfl⟩ := delete_replaces hdelete hepoch hv hcurr
    refine ⟨fun e p he => hr.early he,?_,fun _ _ _ => rfl,hr.versions⟩
    intro e p he
    have := hr.late hcurr he (p := p)
    have := keyed_equal (hlist ▸ hf.sorted) hkey p
    have := hf.split hlist
    grind [Keyed]
  next =>
    cases h
    exact unchanged_shows hf hv

theorem insert_shows (hepoch : w.thread.epoch = some c) (hown : Owns c w key val newNode)
    (h : w.insert al key newNode = .ok (w',ret)) : Shows c key (some newNode) w w' := by
  unfold Section.insert at h
  split at h
  next before curr after hsearch =>
    obtain ⟨hlist,hkey⟩ := search_equal hsearch
    rw [nil_append] at hlist
    obtain ⟨w1,hdelete,h⟩ := of_bind_ok h
    cases h
    obtain ⟨m',hr,rfl⟩ := delete_replaces hdelete hepoch hv hown.current
    refine ⟨fun e p he => hr.early he,?_,fun _ _ _ => rfl,hr.versions⟩
    intro e p he
    have := (hf.split hlist).1.snapshot he
    have := hown.unlinked
    have := hr.late hown.current he (p := p)
    have := keyed_equal (hlist ▸ hf.sorted) hkey p
    grind [Keyed]
  next hsearch =>
    obtain ⟨hlist,hb,ha⟩ := search_absent hf.sorted (by simp) hsearch
    cases h
    exact link_shows hv hown hlist hb ha

theorem put_shows (hepoch : w.thread.epoch = some c) (hc : c ≠ nullEpoch)
    (hown : Owns c w key val newNode) (h : w.put al key val newNode = .ok (w',ret)) :
    Shows c key (some newNode) w w' := by
  unfold Section.put at h
  split at h
  next before curr after hsearch =>
    obtain ⟨hlist,hkey⟩ := search_equal hsearch
    rw [nil_append] at hlist
    have hsplit := hf.split hlist
    have hcurr := hsplit.1
    have hkeyed := keyed_equal (hlist ▸ hf.sorted) hkey
    obtain ⟨⟨w1,r⟩,hset,h⟩ := of_bind_ok h
    obtain ⟨w2,hdelete,h⟩ := of_bind_ok h
    cases h
    simp only [Section.setVal,hepoch] at hset
    obtain ⟨⟨is,r'⟩,hopen,hset⟩ := of_bind_ok hset
    cases hset
    have ha := al.fresh_not_mem w.mem.allocated
    have hr := set_val_replaces hv hcurr ha hopen
    obtain ⟨is',r',hopen',hw⟩ := set_val_writes hf.tidy hc hcurr ha
    cases hopen.symm.trans hopen'
    have hunlinked := hown.unlinked
    have hnode := hw.others newNode c (by grind) hown.current
    have hmem := hown.current.allocated
    obtain ⟨m',hr',rfl⟩ := delete_replaces hdelete hepoch hr.versions hnode
    refine ⟨fun e p he => (hr'.early he).trans (hr.early he),?_,?_,hr'.versions⟩
    · intro e p he
      have := hr'.late hnode he (p := p)
      have := hr.late hcurr he (p := p)
      have := hw.fresh
      have := hkeyed p
      grind [Keyed]
    · intro p hp hor
      have := openwrite_pblk_ok hopen
      have := hkeyed p
      grind [Keyed]
  next hsearch =>
    obtain ⟨hlist,hb,ha⟩ := search_absent hf.sorted (by simp) hsearch
    cases h
    exact link_shows hv hown hlist hb ha

end

end Bodies

end Montage.MontageHashTable
