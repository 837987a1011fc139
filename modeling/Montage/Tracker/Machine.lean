import Montage.Basic
import Montage.Library.Runs
import Mathlib.Data.Fin.Basic

namespace Montage.Tracker
open Library Function Option

/-- The part of a transaction tracker that workers and advancers share, one atomic
access at a time: the store that `consistent_register_active` makes before it looks at
the epoch again, the store that takes it back, and the loads of `no_active(target)`,
of which load `i` of `loads` decides whether the scan may go on. -/
structure TransactionTracker (n : Nat) where
  Mem : Type
  fresh : Mem
  register : Mem → Fin n → Nat → Mem
  unregister : Mem → Fin n → Nat → Mem
  loads : Nat
  clear : Mem → Nat → Nat → Bool

/-- `begin_transaction` of a worker: read the epoch, register under it, check that the
epoch has not moved, and otherwise take the registration back and start over. -/
inductive Worker where
  | out
  | readEpoch
  | register (c : Nat)
  | recheck (c : Nat)
  | undo (c : Nat)
  | active (c : Nat)
  deriving DecidableEq

/-- An advancer reads the epoch `c`, repeats the scan `no_active(c-1)` until it comes
through, and tries to move the epoch from `c` to `c+1`. -/
inductive Advancer where
  | readEpoch
  | scan (c i : Nat)
  | epochCas (c : Nat)

structure State (T : TransactionTracker n) where
  globalEpoch : Nat
  mem : T.Mem
  worker : Fin n → Worker
  advancer : Nat → Advancer

inductive Act (n : Nat) where
  | begin (t : Fin n)
  | work (t : Fin n)
  | finish (t : Fin n)
  | advance (a : Nat)

variable {n : Nat} {T : TransactionTracker n}

def init (T : TransactionTracker n) (g : Nat) : State T :=
  ⟨g,T.fresh,fun _ => .out,fun _ => .readEpoch⟩

section
variable (s : State T)

def State.setWorker (t : Fin n) (w : Worker) : State T :=
  { s with worker := update s.worker t w }

def State.setAdvancer (a : Nat) (p : Advancer) : State T :=
  { s with advancer := update s.advancer a p }

def stepWorker (t : Fin n) : Option (State T) :=
  match s.worker t with
  | .readEpoch => some (s.setWorker t (.register s.globalEpoch))
  | .register c => some { s.setWorker t (.recheck c) with mem := T.register s.mem t c }
  | .recheck c =>
    if c = s.globalEpoch then some (s.setWorker t (.active c)) else some (s.setWorker t (.undo c))
  | .undo c => some { s.setWorker t .readEpoch with mem := T.unregister s.mem t c }
  | _ => none

def stepAdvancer (a : Nat) : State T :=
  match s.advancer a with
  | .readEpoch => s.setAdvancer a (.scan s.globalEpoch 0)
  | .scan c i =>
    if i < T.loads then
      if T.clear s.mem i (c - 1) then s.setAdvancer a (.scan c (i + 1))
      else s.setAdvancer a (.scan c 0)
    else s.setAdvancer a (.epochCas c)
  | .epochCas c =>
    if s.globalEpoch = c then { s.setAdvancer a .readEpoch with globalEpoch := c + 1 }
    else s.setAdvancer a .readEpoch

/-- `finish` is `end_transaction` or `abort_transaction`: both only unregister. -/
def step : Act n → Option (State T)
  | .begin t => if s.worker t = .out then some (s.setWorker t .readEpoch) else none
  | .work t => stepWorker s t
  | .finish t =>
    match s.worker t with
    | .active c => some { s.setWorker t .out with mem := T.unregister s.mem t c }
    | _ => none
  | .advance a => some (stepAdvancer s a)

def Worker.registered : Worker → Option Nat
  | .recheck c | .undo c | .active c => some c
  | _ => none

def Worker.epoch : Worker → Option Nat
  | .register c | .recheck c | .undo c | .active c => some c
  | _ => none

/-- What a tracker has to guarantee: its memory reflects the registrations `r`, and the
load at `slot t` finds the registration of `t`. -/
structure Lawful (T : TransactionTracker n) where
  Reflects : T.Mem → (Fin n → Option Nat) → Prop
  slot : Fin n → Nat
  slot_lt : ∀ t, slot t < T.loads
  fresh : Reflects T.fresh (fun _ => none)
  register : ∀ {m r t}, Reflects m r → r t = none → ∀ e,
    Reflects (T.register m t e) (update r t (some e))
  unregister : ∀ {m r t e}, Reflects m r → r t = some e →
    Reflects (T.unregister m t e) (update r t none)
  seen : ∀ {m r t e}, Reflects m r → r t = some e → nullEpoch < e → T.clear m (slot t) e = false

/-- An operation active in `e` keeps the epoch at `e` or `e+1`. -/
def Holds : Prop :=
  ∀ t e, s.worker t = .active e → s.globalEpoch = e ∨ s.globalEpoch = e + 1

/-- What an advancer has established about the epoch before the one it read: the part
of the memory it has scanned has no active operation of that epoch behind it. New ones
cannot appear there, because registration is confirmed only in the current epoch. -/
def Scanned (slot : Fin n → Nat) (g : Nat) (worker : Fin n → Worker) : Advancer → Prop
  | .readEpoch => True
  | .scan c i => nullEpoch < c ∧ c ≤ g ∧ ∀ t, worker t = .active (c - 1) → i ≤ slot t
  | .epochCas c => nullEpoch < c ∧ c ≤ g ∧ ∀ t, worker t ≠ .active (c - 1)

end

structure Inv (L : Lawful T) (s : State T) : Prop where
  reflects : L.Reflects s.mem (fun t => (s.worker t).registered)
  positive : nullEpoch < s.globalEpoch
  epochs : ∀ t e, (s.worker t).epoch = some e → nullEpoch < e
  holds : Holds s
  scanned : ∀ a, Scanned L.slot s.globalEpoch s.worker (s.advancer a)

variable {L : Lawful T} {s s' : State T} {t : Fin n}

theorem init_inv (L : Lawful T) (hg : nullEpoch < g) : Inv L (init T g) where
  reflects := L.fresh
  positive := hg
  epochs := by simp [init,Worker.epoch]
  holds := by simp [Holds,init]
  scanned := fun _ => trivial

theorem registered_update (f : Fin n → Worker) (t : Fin n) (w : Worker) :
    (fun u => (update f t w u).registered) =
      update (fun u => (f u).registered) t w.registered := by
  funext u
  by_cases hu : u = t
  · subst u; simp
  · simp [hu]

/-- Only a worker that becomes active matters to an advancer, and it becomes active in
the epoch that is current, which no advancer has gone past. -/
theorem Scanned.worker {slot : Fin n → Nat} {f : Fin n → Worker} {p : Advancer} {w : Worker}
    (h : Scanned slot g f p) (hw : ∀ c, w = .active c → c = g) :
    Scanned slot g (update f t w) p := by
  have frame : ∀ c, nullEpoch < c → c ≤ g → ∀ u,
      update f t w u = .active (c - 1) → f u = .active (c - 1) := by
    intro c hc hcg u hu
    by_cases hut : u = t
    · subst u
      rw [update_self] at hu
      have := hw _ hu
      unfold nullEpoch at hc
      omega
    · simpa [hut] using hu
  cases p with
  | readEpoch => trivial
  | scan c | epochCas c =>
    obtain ⟨hc,hcg,hs⟩ := h
    exact ⟨hc,hcg,fun u hu => hs u (frame c hc hcg u hu)⟩

section
variable (h : Inv L s)
include h

theorem Inv.worker {w : Worker} {m : T.Mem}
    (hm : L.Reflects m (update (fun u => (s.worker u).registered) t w.registered))
    (he : ∀ e, w.epoch = some e → nullEpoch < e) (hw : ∀ c, w = .active c → c = s.globalEpoch) :
    Inv L { s.setWorker t w with mem := m } where
  reflects := by
    change L.Reflects m (fun u => (update s.worker t w u).registered)
    rw [registered_update]
    exact hm
  positive := h.positive
  epochs := by
    intro u e hu
    by_cases hut : u = t
    · subst u
      exact he e (by simpa [State.setWorker] using hu)
    · exact h.epochs u e (by simpa [State.setWorker,hut] using hu)
  holds := by
    intro u e hu
    by_cases hut : u = t
    · subst u
      have := hw e (by simpa [State.setWorker] using hu)
      exact Or.inl this.symm
    · exact h.holds u e (by simpa [State.setWorker,hut] using hu)
  scanned := fun a => (h.scanned a).worker hw

theorem Inv.worker_only {w : Worker} (hr : w.registered = (s.worker t).registered)
    (he : ∀ e, w.epoch = some e → nullEpoch < e) (hw : ∀ c, w = .active c → c = s.globalEpoch) :
    Inv L (s.setWorker t w) := by
  refine h.worker (m := s.mem) ?_ he hw
  rw [hr,update_eq_self t (fun u => (s.worker u).registered)]
  exact h.reflects

theorem Inv.unregister (hr : (s.worker t).registered = some c) {w : Worker}
    (hw : w.epoch = none) (hn : w.registered = none) :
    Inv L { s.setWorker t w with mem := T.unregister s.mem t c } := by
  apply h.worker
  · rw [hn]
    exact L.unregister h.reflects hr
  · simp [hw]
  · intro c hc
    simp [hc,Worker.epoch] at hw

theorem step_worker_inv (hs : stepWorker s t = some s') : Inv L s' := by
  have he := h.epochs t
  cases hw : s.worker t with
  | out | active => simp [stepWorker,hw] at hs
  | readEpoch =>
    simp only [stepWorker,hw,some.injEq] at hs
    subst s'
    refine h.worker_only (by simp [hw,Worker.registered]) ?_ (by simp)
    intro e hw
    cases hw
    exact h.positive
  | register c =>
    simp only [stepWorker,hw,some.injEq] at hs
    subst s'
    refine h.worker (L.register h.reflects (by simp [hw,Worker.registered]) c) ?_ (by simp)
    intro e hce
    exact he e (by simpa [hw,Worker.epoch] using hce)
  | recheck c =>
    have hc : nullEpoch < c := he c (by simp [hw,Worker.epoch])
    simp only [stepWorker,hw] at hs
    split at hs
    all_goals cases hs
    · rename_i hcg
      refine h.worker_only (by simp [hw,Worker.registered]) ?_ ?_
      · simpa [Worker.epoch] using hc
      · intro c' hcc
        cases hcc
        exact hcg
    · refine h.worker_only (by simp [hw,Worker.registered]) ?_ (by simp)
      simpa [Worker.epoch] using hc
  | undo =>
    simp only [stepWorker,hw,some.injEq] at hs
    subst s'
    exact h.unregister (by simp [hw,Worker.registered]) rfl rfl

theorem Inv.advancer {p : Advancer}
    (hp : Scanned L.slot s.globalEpoch s.worker p) : Inv L (s.setAdvancer a p) where
  reflects := h.reflects
  positive := h.positive
  epochs := h.epochs
  holds := h.holds
  scanned := (forall_update_iff s.advancer
    (fun _ q => Scanned L.slot s.globalEpoch s.worker q)).mpr ⟨hp,fun b _ => h.scanned b⟩

omit h in
theorem Scanned.later {slot : Fin n → Nat} {f : Fin n → Worker} {p : Advancer}
    (h : Scanned slot g f p) (hg : g ≤ g') : Scanned slot g' f p := by
  cases p with
  | readEpoch => trivial
  | scan | epochCas => exact ⟨h.1,le_trans h.2.1 hg,h.2.2⟩

/-- The increment from `c` is safe: active operations are in `c-1` or `c`, and the
scan has excluded `c-1`. -/
theorem Inv.increment (ha : s.advancer a = .epochCas s.globalEpoch) :
    Inv L { s.setAdvancer a .readEpoch with globalEpoch := s.globalEpoch + 1 } := by
  have hscan := h.scanned a
  rw [ha] at hscan
  refine ⟨h.reflects,Nat.lt_succ_of_lt h.positive,h.epochs,?_,?_⟩
  · intro t e he
    change s.globalEpoch + 1 = e ∨ s.globalEpoch + 1 = e + 1
    have hne := hscan.2.2 t
    rcases h.holds t e he with hg | hg
    · exact Or.inr (by omega)
    · exfalso
      apply hne
      have hact : s.worker t = .active e := he
      simp [hact,hg]
  · exact (forall_update_iff s.advancer
      (fun _ q => Scanned L.slot (s.globalEpoch + 1) s.worker q)).mpr
        ⟨trivial,fun b _ => (h.scanned b).later (Nat.le_succ _)⟩

theorem step_advancer_inv (a : Nat) : Inv L (stepAdvancer s a) := by
  have hscan := h.scanned a
  cases ha : s.advancer a with
  | readEpoch =>
    simp only [stepAdvancer,ha]
    exact h.advancer ⟨h.positive,le_rfl,fun _ _ => Nat.zero_le _⟩
  | scan c i =>
    rw [ha] at hscan
    obtain ⟨hc,hcg,hs⟩ := hscan
    simp only [stepAdvancer,ha]
    split
    · split
      · rename_i hclear
        refine h.advancer ⟨hc,hcg,?_⟩
        intro t ht
        have hle := hs t ht
        -- An active operation behind load `i` would have been seen by it.
        have hne : L.slot t ≠ i := by
          intro he
          have hreg : (s.worker t).registered = some (c - 1) := by simp [ht,Worker.registered]
          have hpos := h.epochs t (c - 1) (by simp [ht,Worker.epoch])
          have hseen := L.seen h.reflects hreg hpos
          rw [he,hclear] at hseen
          cases hseen
        omega
      · exact h.advancer ⟨hc,hcg,fun _ _ => Nat.zero_le _⟩
    · refine h.advancer ⟨hc,hcg,?_⟩
      intro t ht
      have := hs t ht
      have := L.slot_lt t
      omega
  | epochCas c =>
    simp only [stepAdvancer,ha]
    split
    · rename_i hg
      subst c
      exact h.increment ha
    · exact h.advancer trivial

theorem step_inv (hs : step s a = some s') : Inv L s' := by
  cases a with
  | begin =>
    simp only [step] at hs
    split at hs
    · rename_i hw
      cases hs
      exact h.worker_only (by simp [hw,Worker.registered]) (by simp [Worker.epoch]) (by simp)
    · contradiction
  | work => exact step_worker_inv h hs
  | finish t =>
    cases hw : s.worker t with
    | active =>
      simp only [step,hw,some.injEq] at hs
      subst s'
      exact h.unregister (by simp [hw,Worker.registered]) rfl rfl
    | _ => simp [step,hw] at hs
  | advance a =>
    simp only [step,some.injEq] at hs
    exact hs ▸ step_advancer_inv h a

end

/-- Any lawful tracker holds back the epoch along every run. -/
theorem Lawful.holds (L : Lawful T) (hg : nullEpoch < g)
    (run : Run step ok (init T g) ms s) : Holds s :=
  (run.invariant (Inv L) (init_inv L hg) (fun _ _ _ h _ hs => step_inv h hs)).holds

end Montage.Tracker
