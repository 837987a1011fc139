import Montage.EpochSys.Calls
import Montage.Library.Runs

namespace Montage.ToBeFreed
open Library List

/-- The blocking system frees in `ThreadLocalFreedContainer::free_on_new_epoch`, the
nonblocking one in `nbEpochSys::local_free`. -/
inductive Kind where
  | blocking | nonblocking
  deriving DecidableEq

/-- A block in a to-be-freed bucket. The bucket holds only the pointer; the label it was
registered under is remembered for the statements. -/
structure Waiting where
  blk : Addr
  label : Nat

structure Freed where
  blk : Addr
  epoch : Nat
  deriving DecidableEq

/-- One thread's share of the to-be-freed container. `lastEpoch` is its `threadEpoch`
slot, or its `last_epochs` slot in the nonblocking system; `todo` holds the labels that
the beginning of the operation still has to free, `freed` the deallocations made so far,
the latest first. -/
structure Thread where
  lastEpoch : Nat
  op : Option Nat
  todo : List Nat
  buckets : Nat → List Waiting
  freed : List Freed

def start (last : Nat) : Thread := ⟨last,none,[],fun _ => [],[]⟩

def Thread.waits (th : Thread) (b : Addr) : Bool :=
  (List.range epochWindow).any fun j => (th.buckets j).any fun w => w.blk == b

/-- The labels visited by `for (i = last-1; i <= min(last+1, c-2); i++)`. -/
def window (last c : Nat) : List Nat :=
  List.range' (sub64 last 1) (min (last + 1) (sub64 c 2) + 1 - sub64 last 1)

/-- The start of an operation in epoch `c`. The nonblocking system updates its slot only
when the operation ends. -/
def freeOnNewEpoch (k : Kind) (th : Thread) (c : Nat) : Thread :=
  if th.lastEpoch = c then { th with op := some c }
  else { th with
    op := some c
    todo := window th.lastEpoch c
    lastEpoch := match k with
      | .blocking => c
      | .nonblocking => th.lastEpoch }

def finish (k : Kind) (th : Thread) (c : Nat) : Thread :=
  { th with
    op := none
    lastEpoch := match k with
      | .blocking => th.lastEpoch
      | .nonblocking => c }

def registerFree (th : Thread) (b : Addr) (l : Nat) : Thread :=
  { th with
    buckets := Function.update th.buckets (l % epochWindow)
      (⟨b,l⟩ :: th.buckets (l % epochWindow)) }

def deallocate (th : Thread) (b : Addr) (c : Nat) : Thread :=
  { th with freed := ⟨b,c⟩ :: th.freed }

/-- One round of `pop_all_local` for label `i`: the vector is emptied from its back. -/
def helpFreeLocal (th : Thread) (i c : Nat) (rest : List Nat) : Thread :=
  match th.buckets (i % epochWindow) with
  | [] => { th with todo := rest }
  | w :: ws =>
    deallocate { th with buckets := Function.update th.buckets (i % epochWindow) ws } w.blk c

/-- An operation begins, takes one step of its deferred frees, makes a call, or ends. -/
inductive Act (ι : Type) where
  | begin (c : Nat)
  | drain
  | instr (i : ι)
  | finish

/-- Within an operation of epoch `c` the calls register blocks under `c` or `c+1`. A block
that waits in a bucket belongs to the container: no call registers or frees it again. -/
def stepInstr (th : Thread) (c : Nat) : Instr → Option Thread
  | .registerFree b l =>
    if th.waits b = false ∧ (l = c ∨ l = c + 1) then some (registerFree th b l) else none
  | .deallocate b => if th.waits b = false then some (deallocate th b c) else none
  | _ => some th

/-- Operations of one thread follow each other in nondecreasing epochs. `epochs` are those they can
have, and `instr` is what a call does in an operation of epoch `c`. -/
def stepWith (epochs : Nat → Prop) [DecidablePred epochs] (instr : Thread → Nat → ι → Option Thread)
    (k : Kind) (th : Thread) : Act ι → Option Thread
  | .begin c =>
    if th.op = none ∧ epochs c ∧ th.lastEpoch ≤ c then some (freeOnNewEpoch k th c) else none
  | .drain =>
    match th.op, th.todo with
    | some c, i :: rest => some (helpFreeLocal th i c rest)
    | _, _ => none
  | .instr i =>
    match th.op, th.todo with
    | some c, [] => instr th c i
    | _, _ => none
  | .finish =>
    match th.op, th.todo with
    | some c, [] => some (finish k th c)
    | _, _ => none

def step : Kind → Thread → Act Instr → Option Thread :=
  stepWith (fun c => nullEpoch < c ∧ c < uint64Max) stepInstr

def Thread.now (th : Thread) : Nat := th.op.getD th.lastEpoch

def Thread.Waits (th : Thread) (w : Waiting) : Prop := ∃ j, w ∈ th.buckets j

/-- The labels of the blocks that wait, relative to the epoch of the operation. Between
operations they are the last epoch and its neighbours; while an operation begins, those
that are due are still listed in `todo`, in ascending order. -/
structure Inv (k : Kind) (th : Thread) : Prop where
  bucket : ∀ j w, w ∈ th.buckets j → j = w.label % epochWindow
  idle : th.op = none → th.todo = [] ∧
    ∀ w, th.Waits w → 0 < th.lastEpoch ∧ th.lastEpoch ≤ w.label + 1 ∧ w.label ≤ th.lastEpoch + 1
  epoch : ∀ c, th.op = some c → 0 < c ∧ th.lastEpoch ≤ c ∧ (k = .blocking → th.lastEpoch = c)
  ascending : th.todo.Pairwise (· < ·)
  due : ∀ c, th.op = some c → ∀ i ∈ th.todo, i + 2 ≤ c
  waiting : ∀ c, th.op = some c → ∀ w, th.Waits w →
    (w.label ∈ th.todo ∨ c ≤ w.label + 1) ∧ w.label ≤ c + 1 ∧ ∀ i ∈ th.todo, w.label ≤ i + 2

variable {k : Kind} {th th' : Thread} {b : Addr} {c i j l : Nat} {w : Waiting}

theorem start_inv (k : Kind) (last : Nat) : Inv k (start last) := by
  constructor <;> simp [start,Thread.Waits]

section
variable (h : Inv k th)
include h

theorem Inv.waits_iff (b : Addr) : th.waits b = true ↔ ∃ w, th.Waits w ∧ w.blk = b := by
  simp only [Thread.waits,any_eq_true,mem_range,beq_iff_eq]
  constructor
  · rintro ⟨j,-,w,hw,hb⟩
    exact ⟨w,⟨j,hw⟩,hb⟩
  · rintro ⟨w,⟨j,hw⟩,hb⟩
    refine ⟨j,?_,w,hw,hb⟩
    rw [h.bucket j w hw]
    exact Nat.mod_lt _ (by decide)

omit h in
theorem mem_window (hl : 0 < last) (hc : last < c) (hm : c ≤ uint64Max) :
    i ∈ window last c ↔ last ≤ i + 1 ∧ i ≤ last + 1 ∧ i + 2 ≤ c := by
  simp only [uint64Max] at hm
  rw [window,sub64_of_le (by omega) (by omega),sub64_of_le (by omega) (by omega),
    mem_range'_1]
  omega

omit h in
theorem window_null (c : Nat) : window 0 c = [] := by
  have hs : sub64 0 1 = 2 ^ 64 - 1 := by decide
  rw [window,hs,range'_eq_nil_iff]
  omega

theorem free_on_new_epoch_inv (hop : th.op = none) (hc : 0 < c)
    (hle : th.lastEpoch ≤ c) (hm : c ≤ uint64Max) : Inv k (freeOnNewEpoch k th c) := by
  obtain ⟨htodo,hw⟩ := h.idle hop
  unfold freeOnNewEpoch
  split
  next heq =>
    refine ⟨h.bucket,by simp,?_,h.ascending,?_,?_⟩
    · rintro c' ⟨rfl⟩
      exact ⟨hc,hle,fun _ => heq⟩
    · simp [htodo]
    · rintro c' ⟨rfl⟩ w hw'
      have := hw w hw'
      refine ⟨.inr ?_,?_,by simp [htodo]⟩ <;> omega
  next =>
    refine ⟨h.bucket,by simp,?_,pairwise_lt_range' .. ,?_,?_⟩
    · rintro c' ⟨rfl⟩
      cases k with
      | blocking => exact ⟨hc,Nat.le_refl _,fun _ => rfl⟩
      | nonblocking => exact ⟨hc,hle,by simp⟩
    · rintro c' ⟨rfl⟩ i hi
      rcases Nat.eq_zero_or_pos th.lastEpoch with h0 | hpos
      · simp [h0,window_null] at hi
      · exact ((mem_window hpos (by omega) hm).mp hi).2.2
    · rintro c' ⟨rfl⟩ w hw'
      -- labels run from one below to one above the last epoch, and `window` has the due ones
      obtain ⟨hpos,hlo,hhi⟩ := hw w hw'
      refine ⟨?_,by omega,?_⟩
      · by_cases hdue : w.label + 2 ≤ c
        · exact .inl ((mem_window hpos (by omega) hm).mpr ⟨hlo,hhi,hdue⟩)
        · exact .inr (by omega)
      · intro i hi
        have := (mem_window hpos (by omega) hm).mp hi
        omega

omit h in
theorem mem_register_free :
    w ∈ (registerFree th b l).buckets j ↔
      (w = ⟨b,l⟩ ∧ j = l % epochWindow) ∨ w ∈ th.buckets j := by
  by_cases hj : j = l % epochWindow
  · subst j; simp [registerFree]
  · simp [registerFree,hj]

theorem deallocate_inv : Inv k (deallocate th b c) :=
  ⟨h.bucket,h.idle,h.epoch,h.ascending,h.due,h.waiting⟩

section
variable (hop : th.op = some c)
include hop

theorem finish_inv (htodo : th.todo = []) : Inv k (finish k th c) := by
  obtain ⟨hc,hle,hblocking⟩ := h.epoch c hop
  refine ⟨h.bucket,?_,by simp [finish],h.ascending,by simp [finish],by simp [finish]⟩
  intro _
  refine ⟨htodo,?_⟩
  intro w hw
  have hlast : (finish k th c).lastEpoch = c := by
    cases k with
    | blocking => exact hblocking rfl
    | nonblocking => rfl
  have hlabel := h.waiting c hop w hw
  simp only [htodo,not_mem_nil,false_or] at hlabel
  rw [hlast]
  omega

theorem register_free_inv (htodo : th.todo = [])
    (hl : l = c ∨ l = c + 1) : Inv k (registerFree th b l) := by
  refine ⟨?_,?_,h.epoch,h.ascending,h.due,?_⟩
  · intro j w hw
    rcases mem_register_free.mp hw with ⟨rfl,hj⟩ | hw
    · exact hj
    · exact h.bucket j w hw
  · intro hnone
    simp [registerFree,hop] at hnone
  · intro c' hop' w hwaits
    obtain ⟨j,hw⟩ := hwaits
    obtain rfl : c = c' := Option.some.inj (hop.symm.trans hop')
    rcases mem_register_free.mp hw with ⟨rfl,-⟩ | hw
    · refine ⟨.inr ?_,?_,by simp [registerFree,htodo]⟩ <;> simp only <;> omega
    · exact h.waiting c hop w ⟨j,hw⟩

/-- Removing blocks from the buckets and labels from the front of `todo` is harmless, as
long as no block is left behind under a removed label. -/
theorem Inv.shrink (buckets : Nat → List Waiting)
    (todo : List Nat) (hb : ∀ j, buckets j ⊆ th.buckets j) (ht : todo.Sublist th.todo)
    (hleft : ∀ j, ∀ w ∈ buckets j, w.label ∈ th.todo → w.label ∈ todo) :
    Inv k { th with buckets := buckets, todo := todo } := by
  refine ⟨fun j w hw => h.bucket j w (hb j hw),?_,h.epoch,h.ascending.sublist ht,?_,?_⟩
  · intro hnone
    simp [hop] at hnone
  · exact fun c hc i hi => h.due c hc i (ht.subset hi)
  · rintro c hc w ⟨j,hw⟩
    obtain ⟨hdue,hhi,hnear⟩ := h.waiting c hc w ⟨j,hb j hw⟩
    exact ⟨hdue.imp_left (hleft j w hw),hhi,fun i hi => hnear i (ht.subset hi)⟩

/-- Within an operation that is still freeing, the waiting labels start at the next one
to be freed. -/
theorem Inv.head_le (htodo : th.todo = i :: rest) (hw : th.Waits w) : i ≤ w.label := by
  obtain ⟨hdue | hlate,-,-⟩ := h.waiting c hop w hw
  · rw [htodo] at hdue
    rcases mem_cons.mp hdue with heq | hrest
    · exact Nat.le_of_eq heq.symm
    · have hasc := h.ascending
      rw [htodo] at hasc
      exact Nat.le_of_lt (rel_of_pairwise_cons hasc hrest)
  · have := h.due c hop i (by simp [htodo])
    omega

theorem Inv.head_bucket (htodo : th.todo = i :: rest)
    (hw : w ∈ th.buckets (i % epochWindow)) : w.label = i := by
  have hlo := h.head_le hop htodo ⟨_,hw⟩
  have hhi := (h.waiting c hop w ⟨_,hw⟩).2.2 i (by simp [htodo])
  have hmod := h.bucket _ _ hw
  simp only [epochWindow] at hmod
  omega

theorem help_free_local_inv (htodo : th.todo = i :: rest) : Inv k (helpFreeLocal th i c rest) := by
  unfold helpFreeLocal
  split
  next hempty =>
    refine h.shrink hop th.buckets rest (fun _ => List.Subset.refl _) (by simp [htodo]) ?_
    intro j w hw hmem
    rw [htodo] at hmem
    rcases mem_cons.mp hmem with heq | hrest
    · have hj := h.bucket j w hw
      rw [heq] at hj
      simp [hj,hempty] at hw
    · exact hrest
  next hbucket =>
    apply deallocate_inv
    refine h.shrink hop _ th.todo ?_ (List.Sublist.refl _) (fun _ _ _ hm => hm)
    intro j
    by_cases hj : j = i % epochWindow
    · subst j; simp [hbucket]
    · simp [hj]

theorem step_instr_inv (htodo : th.todo = []) (hs : stepInstr th c ins = some th') : Inv k th' := by
  unfold stepInstr at hs
  split at hs
  · split at hs
    next hguard => cases hs; exact register_free_inv h hop htodo hguard.2
    next => cases hs
  · split at hs
    next => cases hs; exact deallocate_inv h
    next => cases hs
  · cases hs; exact h

end

omit h in
theorem step_cases {epochs : Nat → Prop} [DecidablePred epochs]
    {instr : Thread → Nat → ι → Option Thread} {a : Act ι}
    (hs : stepWith epochs instr k th a = some th') :
    (∃ c, a = .begin c ∧ th.op = none ∧ epochs c ∧ th.lastEpoch ≤ c ∧
      th' = freeOnNewEpoch k th c) ∨
    (∃ c i rest, a = .drain ∧ th.op = some c ∧ th.todo = i :: rest ∧
      th' = helpFreeLocal th i c rest) ∨
    (∃ c i, a = .instr i ∧ th.op = some c ∧ th.todo = [] ∧ instr th c i = some th') ∨
    (∃ c, a = .finish ∧ th.op = some c ∧ th.todo = [] ∧ th' = finish k th c) := by
  cases a with
  | begin c =>
    simp only [stepWith] at hs
    split at hs
    next hguard =>
      obtain ⟨hop,hc,hle⟩ := hguard
      exact .inl ⟨c,rfl,hop,hc,hle,(Option.some.inj hs).symm⟩
    next => cases hs
  | drain =>
    simp only [stepWith] at hs
    split at hs
    next c i rest hop htodo =>
      exact .inr (.inl ⟨c,i,rest,rfl,hop,htodo,(Option.some.inj hs).symm⟩)
    next => cases hs
  | instr i =>
    simp only [stepWith] at hs
    split at hs
    next c hop htodo => exact .inr (.inr (.inl ⟨c,i,rfl,hop,htodo,hs⟩))
    next => cases hs
  | finish =>
    simp only [stepWith] at hs
    split at hs
    next c hop htodo =>
      exact .inr (.inr (.inr ⟨c,rfl,hop,htodo,(Option.some.inj hs).symm⟩))
    next => cases hs

theorem step_with_inv {epochs : Nat → Prop} [DecidablePred epochs]
    {instr : Thread → Nat → ι → Option Thread} {a : Act ι}
    (hepochs : ∀ c, epochs c → 0 < c ∧ c ≤ uint64Max)
    (hinstr : ∀ c i, th.op = some c → th.todo = [] → instr th c i = some th' → Inv k th')
    (hs : stepWith epochs instr k th a = some th') : Inv k th' := by
  obtain ⟨c,-,hop,hc,hle,rfl⟩ | ⟨c,i,rest,-,hop,htodo,rfl⟩ | ⟨c,i,-,hop,htodo,hi⟩ |
    ⟨c,-,hop,htodo,rfl⟩ := step_cases hs
  · exact free_on_new_epoch_inv h hop (hepochs c hc).1 hle (hepochs c hc).2
  · exact help_free_local_inv h hop htodo
  · exact hinstr c i hop htodo hi
  · exact finish_inv h hop htodo

theorem step_inv (hs : step k th a = some th') : Inv k th' :=
  step_with_inv h (fun _ hc => ⟨hc.1,Nat.le_of_lt hc.2⟩)
    (fun _ _ hop htodo hi => step_instr_inv h hop htodo hi) hs

end

end Montage.ToBeFreed
