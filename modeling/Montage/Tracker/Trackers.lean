import Montage.Tracker.Machine
import Mathlib.Data.Fintype.Card

namespace Montage.Tracker
open Library Function

/-- `PerEpochTransactionTracker`: one epoch number per thread. -/
def perEpochTransactionTracker (n : Nat) : TransactionTracker n where
  Mem := Nat → Nat
  fresh := fun _ => nullEpoch
  register := fun currEpochs t c => update currEpochs t c
  unregister := fun currEpochs t _ => update currEpochs t nullEpoch
  loads := n
  clear := fun currEpochs i target => !(target == currEpochs i && currEpochs i != nullEpoch)

/-- `AtomicTransactionTracker`: one counter of active transactions per bucket. -/
def atomicTransactionTracker (n : Nat) : TransactionTracker n where
  Mem := Nat → Nat
  fresh := fun _ => 0
  register := fun counters _ c =>
    update counters (c % epochWindow) (counters (c % epochWindow) + 1)
  unregister := fun counters _ c =>
    update counters (c % epochWindow) (counters (c % epochWindow) - 1)
  loads := 1
  clear := fun counters _ target => counters (target % epochWindow) == 0

/-- `FenceBeginTransactionTracker`: one flag per bucket and thread. Its fence at
registration makes the flag's store sequentially consistent, as every store is here. -/
def fenceBeginTransactionTracker (n : Nat) : TransactionTracker n where
  Mem := Nat → Nat → Bool
  fresh := fun _ _ => false
  register := fun indicators t c => update indicators (c % epochWindow)
    (update (indicators (c % epochWindow)) t true)
  unregister := fun indicators t c => update indicators (c % epochWindow)
    (update (indicators (c % epochWindow)) t false)
  loads := n
  clear := fun indicators i target => !indicators (target % epochWindow) i

theorem update_coe_self (f : Nat → β) (t : Fin n) (b : β) :
    update f t b (t : Nat) = b := update_self _ _ _

theorem update_coe_ne (f : Nat → β) {t u : Fin n} (h : u ≠ t) (b : β) :
    update f t b (u : Nat) = f u :=
  update_of_ne (fun he => h (Fin.ext he)) _ _

def perEpochLawful (n : Nat) : Lawful (perEpochTransactionTracker n) where
  Reflects := fun m r => ∀ t e, r t = some e → m t = e
  slot := fun t => t
  slot_lt := fun t => t.isLt
  fresh := by simp
  register := by
    intro m r t h _ e u e' hu
    by_cases hut : u = t
    · subst u
      rw [update_self,Option.some.injEq] at hu
      exact (update_coe_self m t e).trans hu
    · rw [update_of_ne hut] at hu
      exact (update_coe_ne m hut e).trans (h u e' hu)
  unregister := by
    intro m r t e h _ u e' hu
    by_cases hut : u = t
    · subst u
      simp at hu
    · rw [update_of_ne hut] at hu
      exact (update_coe_ne m hut nullEpoch).trans (h u e' hu)
  seen := by
    intro m r t e h hr he
    have hm : m t = e := h t e hr
    have hne : e ≠ nullEpoch := ne_of_gt he
    simp [perEpochTransactionTracker,hm,hne]

theorem flag_update (f : Nat → Nat → Bool) (j : Nat) (t u : Fin n) (b : Bool) (k : Nat) :
    update f j (update (f j) t b) k u =
      if k = j ∧ u = t then b else f k u := by
  by_cases hk : k = j
  · subst k
    rw [update_self]
    by_cases hu : u = t
    · subst u
      simp
    · simp [hu,update_coe_ne (f j) hu b]
  · simp [hk]

def fenceBeginLawful (n : Nat) : Lawful (fenceBeginTransactionTracker n) where
  Reflects := fun m r => ∀ t e, r t = some e → m (e % epochWindow) t = true
  slot := fun t => t
  slot_lt := fun t => t.isLt
  fresh := by simp
  register := by
    intro (m : Nat → Nat → Bool) r t h hn e u e' hu
    change update m _ _ _ _ = true
    rw [flag_update]
    by_cases hut : u = t
    · subst u
      rw [update_self,Option.some.injEq] at hu
      simp [hu]
    · rw [update_of_ne hut] at hu
      simpa [hut] using h u e' hu
  unregister := by
    intro (m : Nat → Nat → Bool) r t e h _ u e' hu
    change update m _ _ _ _ = true
    rw [flag_update]
    by_cases hut : u = t
    · subst u
      simp at hu
    · rw [update_of_ne hut] at hu
      simpa [hut] using h u e' hu
  seen := by
    intro (m : Nat → Nat → Bool) r t e h hr _
    have hm : m (e % epochWindow) t = true := h t e hr
    simp [fenceBeginTransactionTracker,hm]

def inBucket (r : Fin n → Option Nat) (j : Nat) : Nat :=
  (Finset.univ.filter fun t => (r t).map (· % epochWindow) = some j).card

theorem in_bucket_register (r : Fin n → Option Nat) (hn : r t = none) (e j : Nat) :
    inBucket (update r t (some e)) j =
      if j = e % epochWindow then inBucket r j + 1 else inBucket r j := by
  have hother : ∀ u ≠ t, update r t (some e) u = r u :=
    fun u hu => update_of_ne hu _ _
  unfold inBucket
  split
  · rename_i hj
    have hset : (Finset.univ.filter fun u =>
        (update r t (some e) u).map (· % epochWindow) = some j) =
        insert t (Finset.univ.filter fun u => (r u).map (· % epochWindow) = some j) := by
      ext u
      by_cases hu : u = t
      · subst u; simp [hj]
      · simp [hu]
    rw [hset,Finset.card_insert_of_notMem (by simp [hn])]
  · rename_i hj
    congr 1
    ext u
    by_cases hu : u = t
    · subst u
      simp [hn]
      omega
    · simp [hother u hu]

theorem in_bucket_unregister (r : Fin n → Option Nat) (hr : r t = some e) (j : Nat) :
    inBucket r j = if j = e % epochWindow then inBucket (update r t none) j + 1
      else inBucket (update r t none) j := by
  have h := in_bucket_register (update r t none) (update_self t none r) e j
  rw [update_idem,← hr,update_eq_self] at h
  exact h

def atomicLawful (n : Nat) : Lawful (atomicTransactionTracker n) where
  Reflects := fun m r => ∀ j, m j = inBucket r j
  slot := fun _ => 0
  slot_lt := fun _ => Nat.one_pos
  fresh := by simp [atomicTransactionTracker,inBucket]
  register := by
    intro (m : Nat → Nat) r t h hn e j
    rw [in_bucket_register r hn]
    change update m _ _ j = _
    by_cases hj : j = e % epochWindow
    · subst j
      simp [h (e % epochWindow)]
    · simp [hj,h j]
  unregister := by
    intro (m : Nat → Nat) r t e h hr j
    have hc := in_bucket_unregister r hr j
    change update m _ _ j = _
    by_cases hj : j = e % epochWindow
    · subst j
      rw [if_pos rfl] at hc
      simp [h (e % epochWindow),hc]
    · rw [if_neg hj] at hc
      simp [hj,h j,hc]
  seen := by
    intro (m : Nat → Nat) r t e h hr _
    have hpos : 0 < inBucket r (e % epochWindow) :=
      Finset.card_pos.mpr ⟨t,by simp [hr]⟩
    have hm : m (e % epochWindow) ≠ 0 := by
      have := h (e % epochWindow)
      omega
    simpa [atomicTransactionTracker] using hm

/-- The values of the `TransTracker` setting, in the order of `parse_env`. -/
inductive TransTracker where
  | atomicCounter | activeThread | currEpoch

def tracker : TransTracker → (n : Nat) → TransactionTracker n
  | .atomicCounter => atomicTransactionTracker
  | .activeThread => fenceBeginTransactionTracker
  | .currEpoch => perEpochTransactionTracker

def lawful : (k : TransTracker) → (n : Nat) → Lawful (tracker k n)
  | .atomicCounter => atomicLawful
  | .activeThread => fenceBeginLawful
  | .currEpoch => perEpochLawful

/-- With each tracker, any number of workers and any number of racing advancers, an
operation that `begin_transaction` admitted in `e` keeps the epoch at `e` or `e+1`
until it unregisters. -/
theorem active_epoch_held (k : TransTracker) (n g : Nat) (hg : nullEpoch < g)
    {ms : List (Move (State (tracker k n)) (Act n))} {s : State (tracker k n)}
    (run : Run step (fun _ _ => True) (init (tracker k n) g) ms s)
    (t : Fin n) (e : Nat) (ht : s.worker t = .active e) :
    s.globalEpoch = e ∨ s.globalEpoch = e + 1 :=
  (lawful k n).holds hg run t e ht

def admitted : List (Act 2) :=
  [.begin 0,.work 0,.work 0,.work 0] ++ List.replicate 5 (.advance 0)

theorem active_epoch_held_admitted : ∃ ms s,
    Run step (fun _ _ => True) (init (tracker .currEpoch 2) initEpoch) ms s ∧
      s.worker 0 = .active 3 ∧ (s.globalEpoch = 3 ∨ s.globalEpoch = 3 + 1) := by
  obtain ⟨ms,s,run,hs⟩ := Run.play (step : State (tracker .currEpoch 2) → _)
    (fun _ _ => true) (fun s => s.worker 0 == .active 3 && s.globalEpoch == 4)
    (init (tracker .currEpoch 2) initEpoch) admitted (by decide)
  simp only [Bool.and_eq_true,beq_iff_eq] at hs
  have run : Run step (fun _ _ => True) _ ms s := run.weaken (fun _ _ _ => trivial)
  exact ⟨ms,s,run,hs.1,active_epoch_held .currEpoch 2 initEpoch (by decide) run 0 3 hs.1⟩

end Montage.Tracker
