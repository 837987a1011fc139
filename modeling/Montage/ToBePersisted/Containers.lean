import Mathlib.Data.List.Basic
import Mathlib.Data.Nat.Basic

namespace Montage.ToBePersisted
open Function List Option

inductive Mover where
  | producer
  | consumer (n : Nat)

namespace FixedCircBuffer

inductive Push (ε : Type) where
  | pushedRead (x : ε) (currPushed : Nat)
  | consume (x : ε) (currPushed currPopped : Nat)
  | pop (x : ε) (currPushed currPopped : Nat)
  | store (x : ε) (currPushed : Nat)
  | publish (x : ε) (currPushed : Nat)

def Push.entry : Push ε → ε
  | .pushedRead x _ | .consume x _ _ | .pop x _ _ | .store x _ | .publish x _ => x

/-- Where a thread is in the loop of `pop_all`; `slots` are those it has yet to consume. -/
inductive Pop where
  | start
  | poppedRead (currPopped : Nat)
  | consume (currPopped currPushed : Nat) (slots : List Nat)

structure State (ε : Type) where
  cap : Nat
  pushed : Nat
  popped : Nat
  payloads : Nat → ε
  push : Option (Push ε)
  pop : Nat → Pop

/-- The slots that `pop_all` goes through, in its two loops if they wrap around. -/
def slots (cap currPopped currPushed : Nat) : List Nat :=
  let i := currPopped % cap
  let stop := (i + (currPushed - currPopped)) % cap
  if stop ≤ i then List.range' i (cap - i) ++ List.range stop else List.range' i (stop - i)

variable (s : State ε)

def State.begin (x : ε) : State ε :=
  { s with push := some (.pushedRead x s.pushed) }

/-- One access, with the entry that `func` writes back in it. -/
def State.step : Mover → Option (State ε × Option ε)
  | .producer =>
    match s.push with
    | none => none
    | some (.pushedRead x q) =>
      let p := s.popped
      some ({ s with push := some (if q = p + s.cap then .consume x q p else .store x q) },none)
    | some (.consume x q p) =>
      some ({ s with push := some (.pop x q p) },some (s.payloads (p % s.cap)))
    | some (.pop x q p) =>
      some ({ s with
        popped := if s.popped = p then p + 1 else s.popped
        push := some (.store x q) },none)
    | some (.store x q) =>
      some ({ s with
        payloads := update s.payloads (q % s.cap) x
        push := some (.publish x q) },none)
    | some (.publish _ q) => some ({ s with pushed := q + 1, push := none },none)
  | .consumer n =>
    match s.pop n with
    | .start => some ({ s with pop := update s.pop n (.poppedRead s.popped) },none)
    | .poppedRead p =>
      let q := s.pushed
      let next := if p = q then .start else .consume p q (slots s.cap p q)
      some ({ s with pop := update s.pop n next },none)
    | .consume p q (i :: is) =>
      some ({ s with pop := update s.pop n (.consume p q is) },some (s.payloads i))
    | .consume p q [] =>
      some ({ s with
        popped := if s.popped = p then q else s.popped
        pop := update s.pop n .start },none)

def Push.Inv : Push ε → Prop
  | .pushedRead _ q => q = s.pushed
  | .consume _ q p | .pop _ q p => q = s.pushed ∧ p ≤ s.popped ∧ q = p + s.cap
  | .store _ q => q = s.pushed ∧ s.pushed < s.popped + s.cap
  | .publish x q => q = s.pushed ∧ s.pushed < s.popped + s.cap ∧ s.payloads (q % s.cap) = x

def Pop.Inv : Pop → Prop
  | .start => True
  | .poppedRead p => p ≤ s.popped
  | .consume p q _ => p ≤ s.popped ∧ p < q ∧ q ≤ s.pushed

structure Inv : Prop where
  cap : 0 < s.cap
  le : s.popped ≤ s.pushed
  room : s.pushed ≤ s.popped + s.cap
  push : ∀ p, s.push = some p → p.Inv s
  pop : ∀ n, (s.pop n).Inv s

def Present (x : ε) : Prop :=
  ∃ k, s.popped ≤ k ∧ k < s.pushed ∧ s.payloads (k % s.cap) = x

/-- Entry `k` is not one that the consumer has consumed and will pop. -/
def Pop.Spares (k : Nat) (c : Pop) : Prop :=
  ∀ p q is, c = .consume p q is → p = s.popped → k < q → k % s.cap ∈ is

/-- The entry `k` is `x`, and nobody who is about to pop it has already consumed it. -/
structure HoldsAt (x : ε) (k : Nat) : Prop where
  lower : s.popped ≤ k
  upper : k < s.pushed
  entry : s.payloads (k % s.cap) = x
  push : ∀ y q p, s.push = some (.pop y q p) → p = s.popped → k ≠ p
  pop : ∀ n, (s.pop n).Spares s k

def Holds (x : ε) : Prop :=
  (∃ p, s.push = some p ∧ p.entry = x) ∨ ∃ k, HoldsAt s x k

variable {ε : Type} {s s' : State ε} {x : ε} {o : Option ε} {m : Mover}

theorem mem_slots (hp : p ≤ k) (hk : k < q) (hq : q ≤ p + cap) : k % cap ∈ slots cap p q := by
  have hcap : 0 < cap := by omega
  have hi : p % cap < cap := Nat.mod_lt _ hcap
  have hslot : k % cap = (p % cap + (k - p)) % cap := by
    rw [Nat.mod_add_mod]
    congr 1
    omega
  have hwrap : ∀ j, j ≤ cap →
      (p % cap + j) % cap = if p % cap + j < cap then p % cap + j else p % cap + j - cap := by
    intro j hj
    split
    next h => exact Nat.mod_eq_of_lt h
    next => rw [Nat.mod_eq_sub_mod (by omega),Nat.mod_eq_of_lt (by omega)]
  rw [hslot,hwrap _ (by omega)]
  simp only [slots]
  rw [hwrap _ (by omega)]
  -- The entries that fill the buffer up to its end, and those that begin again.
  by_cases hend : p % cap + (q - p) < cap
  · rw [if_pos hend,if_neg (by omega),if_pos (by omega),mem_range'_1]
    omega
  · rw [if_neg hend,if_pos (by omega),mem_append,mem_range'_1,mem_range]
    split <;> omega

theorem mod_ne {k q cap : Nat} (hlt : k < q) (hq : q < k + cap) : k % cap ≠ q % cap := by
  intro heq
  have hdvd : cap ∣ q - k := Nat.dvd_of_mod_eq_zero (Nat.sub_mod_eq_zero_of_mod_eq heq.symm)
  have := Nat.le_of_dvd (by omega) hdvd
  omega

theorem Push.Inv.mono (h : Push.Inv s p) (hcap : s'.cap = s.cap) (hpushed : s'.pushed = s.pushed)
    (hpopped : s.popped ≤ s'.popped) (hpayloads : s'.payloads = s.payloads) : Push.Inv s' p := by
  cases p with
  | pushedRead => exact h.trans hpushed.symm
  | consume | pop => exact ⟨h.1.trans hpushed.symm,by have := h.2.1; omega,by rw [hcap,h.2.2]⟩
  | store => exact ⟨h.1.trans hpushed.symm,by have := h.2; omega⟩
  | publish =>
    exact ⟨h.1.trans hpushed.symm,by have := h.2.1; omega,by rw [hpayloads,hcap,h.2.2]⟩

theorem Pop.Inv.mono (h : Pop.Inv s p) (hpushed : s.pushed ≤ s'.pushed)
    (hpopped : s.popped ≤ s'.popped) : Pop.Inv s' p := by
  cases p with
  | start => trivial
  | poppedRead => exact le_trans h hpopped
  | consume => exact ⟨le_trans h.1 hpopped,h.2.1,le_trans h.2.2 hpushed⟩

theorem Inv.begin (hi : Inv s) (x : ε) : Inv (s.begin x) where
  cap := hi.cap
  le := hi.le
  room := hi.room
  push := by
    intro p hp
    cases hp
    exact rfl
  pop := fun n => (hi.pop n).mono le_rfl le_rfl

theorem Inv.step (hi : Inv s) (h : s.step m = some (s',o)) : Inv s' := by
  have hle := hi.le
  have hroom := hi.room
  cases m with
  | producer =>
    simp only [State.step] at h
    split at h
    next => cases h
    next q hpush =>
      cases h
      have hq : q = s.pushed := hi.push _ hpush
      refine ⟨hi.cap,hle,hroom,?_,fun n => (hi.pop n).mono le_rfl le_rfl⟩
      intro p hp
      cases hp
      split
      next hfull => exact ⟨hq,le_rfl,hfull⟩
      next => exact ⟨hq,by show s.pushed < s.popped + s.cap; omega⟩
    next hpush =>
      cases h
      refine ⟨hi.cap,hle,hroom,?_,fun n => (hi.pop n).mono le_rfl le_rfl⟩
      intro p' hp
      cases hp
      exact hi.push _ hpush
    next p hpush =>
      cases h
      obtain ⟨hq,hp,hfull⟩ := hi.push _ hpush
      have hcap := hi.cap
      have hpopped : p < (if s.popped = p then p + 1 else s.popped) ∧
          s.popped ≤ (if s.popped = p then p + 1 else s.popped) ∧
          (if s.popped = p then p + 1 else s.popped) ≤ s.pushed := by
        split <;> omega
      refine ⟨hi.cap,hpopped.2.2,?_,?_,fun n => (hi.pop n).mono le_rfl hpopped.2.1⟩
      · show s.pushed ≤ (if s.popped = p then p + 1 else s.popped) + s.cap
        omega
      · intro p' hp'
        cases hp'
        refine ⟨hq,?_⟩
        show s.pushed < (if s.popped = p then p + 1 else s.popped) + s.cap
        omega
    next hpush =>
      cases h
      obtain ⟨hq,hroom'⟩ := hi.push _ hpush
      refine ⟨hi.cap,hle,hroom,?_,fun n => (hi.pop n).mono le_rfl le_rfl⟩
      intro p' hp'
      cases hp'
      exact ⟨hq,hroom',update_self ..⟩
    next q hpush =>
      cases h
      obtain ⟨hq,hroom',-⟩ := hi.push _ hpush
      refine ⟨hi.cap,?_,?_,by simp,fun n => (hi.pop n).mono ?_ le_rfl⟩
      · show s.popped ≤ q + 1
        omega
      · show q + 1 ≤ s.popped + s.cap
        omega
      · show s.pushed ≤ q + 1
        omega
  | consumer n =>
    simp only [State.step] at h
    split at h
    next =>
      cases h
      refine ⟨hi.cap,hle,hroom,fun p hp => (hi.push p hp).mono rfl rfl le_rfl rfl,?_⟩
      refine (forall_update_iff s.pop fun _ p => p.Inv _).mpr
        ⟨le_rfl,fun m _ => (hi.pop m).mono le_rfl le_rfl⟩
    next p hpop =>
      cases h
      have hp : Pop.Inv s (.poppedRead p) := hpop ▸ hi.pop n
      refine ⟨hi.cap,hle,hroom,fun p hp => (hi.push p hp).mono rfl rfl le_rfl rfl,?_⟩
      refine (forall_update_iff s.pop fun _ p => p.Inv _).mpr
        ⟨?_,fun m _ => (hi.pop m).mono le_rfl le_rfl⟩
      split
      next => trivial
      next => exact ⟨hp,by have : p ≤ s.popped := hp; omega,le_rfl⟩
    next p q i is hpop =>
      cases h
      have hp : Pop.Inv s (.consume p q (i :: is)) := hpop ▸ hi.pop n
      refine ⟨hi.cap,hle,hroom,fun p hp => (hi.push p hp).mono rfl rfl le_rfl rfl,?_⟩
      exact (forall_update_iff s.pop fun _ p => p.Inv _).mpr
        ⟨hp,fun m _ => (hi.pop m).mono le_rfl le_rfl⟩
    next p q hpop =>
      cases h
      have hp : Pop.Inv s (.consume p q []) := hpop ▸ hi.pop n
      obtain ⟨hp,hpq,hq⟩ := hp
      have hpopped : s.popped ≤ (if s.popped = p then q else s.popped) ∧
          (if s.popped = p then q else s.popped) ≤ s.pushed := by
        split <;> omega
      refine ⟨hi.cap,hpopped.2,?_,fun p hp => (hi.push p hp).mono rfl rfl hpopped.1 rfl,?_⟩
      · show s.pushed ≤ (if s.popped = p then q else s.popped) + s.cap
        omega
      · exact (forall_update_iff s.pop fun _ p => p.Inv _).mpr
          ⟨trivial,fun m _ => (hi.pop m).mono le_rfl hpopped.1⟩

theorem holds_begin (h : Holds s y) (hidle : s.push = none) (x : ε) : Holds (s.begin x) y := by
  rcases h with ⟨p,hp,-⟩ | ⟨k,hk⟩
  · rw [hidle] at hp
    cases hp
  · exact .inr ⟨k,hk.lower,hk.upper,hk.entry,by simp [State.begin],hk.pop⟩

theorem HoldsAt.step (hi : Inv s) (hk : HoldsAt s x k) (h : s.step m = some (s',o))
    (hkeep : o ≠ some x) : HoldsAt s' x k := by
  obtain ⟨hlower,hupper,hentry,hpush,hpop⟩ := hk
  have hroom := hi.room
  cases m with
  | producer =>
    simp only [State.step] at h
    split at h
    next => cases h
    next =>
      cases h
      refine ⟨hlower,hupper,hentry,?_,hpop⟩
      intro y' q' p' hp'
      simp only [some.injEq] at hp'
      split at hp' <;> cases hp'
    next =>
      cases h
      refine ⟨hlower,hupper,hentry,?_,hpop⟩
      intro y' q' p' hp' _ heq
      cases hp'
      exact hkeep (by rw [← hentry,heq])
    next y q p hprod =>
      cases h
      have hne := hpush y q p hprod
      have hp := (hi.push _ hprod).2.1
      refine ⟨?_,hupper,hentry,by simp,?_⟩
      · show (if s.popped = p then p + 1 else s.popped) ≤ k
        split
        next heq =>
          have := hne heq.symm
          omega
        next => exact hlower
      · -- A consumer that loaded the counter before it moved will fail to set it.
        intro n p' q' is hn hp' hk
        have hp' : p' = if s.popped = p then p + 1 else s.popped := hp'
        have hold : Pop.Inv s (.consume p' q' is) := hn ▸ hi.pop n
        have hle := hold.1
        refine hpop n p' q' is hn ?_ hk
        split at hp' <;> omega
    next q hprod =>
      cases h
      obtain ⟨hq,hfree⟩ := hi.push _ hprod
      refine ⟨hlower,hupper,?_,by simp,hpop⟩
      have hne : k % s.cap ≠ q % s.cap := mod_ne (by omega) (by omega)
      exact (update_of_ne hne _ _).trans hentry
    next q hprod =>
      cases h
      have hq := (hi.push _ hprod).1
      refine ⟨hlower,?_,hentry,by simp,hpop⟩
      show k < q + 1
      omega
  | consumer n =>
    simp only [State.step] at h
    split at h
    next =>
      cases h
      refine ⟨hlower,hupper,hentry,hpush,?_⟩
      refine (forall_update_iff s.pop fun _ c => c.Spares _ k).mpr
        ⟨by simp [Pop.Spares],fun m _ => hpop m⟩
    next p hn =>
      cases h
      refine ⟨hlower,hupper,hentry,hpush,?_⟩
      refine (forall_update_iff s.pop fun _ c => c.Spares _ k).mpr
        ⟨?_,fun m _ => hpop m⟩
      intro p' q' is hc hp' hk
      split at hc
      next => cases hc
      next =>
        cases hc
        have hp' : p = s.popped := hp'
        exact mem_slots (by omega) hk (by omega)
    next p q i is hn =>
      cases h
      refine ⟨hlower,hupper,hentry,hpush,?_⟩
      refine (forall_update_iff s.pop fun _ c => c.Spares _ k).mpr
        ⟨?_,fun m _ => hpop m⟩
      intro p' q' is' hc hp' hk
      cases hc
      rcases mem_cons.mp (hpop n p q (i :: is) hn hp' hk) with heq | hmem
      · exact absurd (by rw [← hentry,heq]) hkeep
      · exact hmem
    next p q hn =>
      cases h
      have hold : Pop.Inv s (.consume p q []) := hn ▸ hi.pop n
      obtain ⟨hp,hpq,hq⟩ := hold
      refine ⟨?_,hupper,hentry,?_,?_⟩
      · show (if s.popped = p then q else s.popped) ≤ k
        split
        next heq =>
          by_contra hlt
          exact absurd (hpop n p q [] hn heq.symm (by omega)) (by simp)
        next => exact hlower
      · intro y q' p' hprod hp'
        have hp' : p' = if s.popped = p then q else s.popped := hp'
        have hold := (hi.push _ hprod).2.1
        refine hpush y q' p' hprod ?_
        split at hp' <;> omega
      · refine (forall_update_iff s.pop fun _ c => c.Spares _ k).mpr
          ⟨by simp [Pop.Spares],?_⟩
        intro m _ p' q' is hm hp' hk
        have hp' : p' = if s.popped = p then q else s.popped := hp'
        have hold : Pop.Inv s (.consume p' q' is) := hm ▸ hi.pop m
        have hle := hold.1
        refine hpop m p' q' is hm ?_ hk
        split at hp' <;> omega

theorem Holds.step (hi : Inv s) (hx : Holds s x) (h : s.step m = some (s',o))
    (hkeep : o ≠ some x) : Holds s' x := by
  rcases hx with ⟨p,hp,hx⟩ | ⟨k,hk⟩
  · cases m with
    | consumer =>
      have hsame : s'.push = s.push := by
        simp only [State.step] at h
        split at h <;> cases h <;> rfl
      exact .inl ⟨p,hsame.trans hp,hx⟩
    | producer =>
      subst hx
      simp only [State.step,hp] at h
      cases p with
      | pushedRead =>
        cases h
        refine .inl ⟨_,rfl,?_⟩
        split <;> rfl
      | publish y q =>
        cases h
        obtain ⟨hq,hfree,hentry⟩ := hi.push _ hp
        refine .inr ⟨q,?_,Nat.lt_succ_self q,hentry,by simp,?_⟩
        · exact hq ▸ hi.le
        · intro n p' q' is hn _ hlt
          have hold : Pop.Inv s (.consume p' q' is) := hn ▸ hi.pop n
          have := hold.2.2
          omega
      | _ =>
        cases h
        exact .inl ⟨_,rfl,rfl⟩
  · exact .inr ⟨k,hk.step hi h hkeep⟩

theorem Holds.present (hx : Holds s x) (hidle : s.push = none) : Present s x := by
  rcases hx with ⟨p,hp,-⟩ | ⟨k,hk⟩
  · rw [hidle] at hp
    cases hp
  · exact ⟨k,hk.lower,hk.upper,hk.entry⟩

end FixedCircBuffer

namespace FixedHashSet

/-- The rest of a call of `push`; `exp` is what it has found in the slot. -/
inductive Push (ε : Type) where
  | load (x : ε)
  | consume (x exp : ε)
  | store (x : ε)

def Push.entry : Push ε → ε
  | .load x | .consume x _ | .store x => x

inductive Pop (ε : Type) where
  | start
  | load (i : Nat)
  | consume (i : Nat) (exp : ε)

/-- The slot of `x` is `hash x % cap`. -/
structure State (ε : Type) where
  cap : Nat
  hash : ε → Nat
  payloads : Nat → Option ε
  push : Option (Push ε)
  pop : Nat → Pop ε

variable (s : State ε)

def State.idx (x : ε) : Nat := s.hash x % s.cap

def State.begin (x : ε) : State ε := { s with push := some (.load x) }

/-- One access, with the entry that `func` writes back in it. `pop_all` leaves the entries
where they are. -/
def State.step [DecidableEq ε] : Mover → Option (State ε × Option ε)
  | .producer =>
    match s.push with
    | none => none
    | some (.load x) =>
      match s.payloads (s.idx x) with
      | none => some ({ s with push := some (.store x) },none)
      | some exp =>
        if exp = x then some ({ s with push := none },none)
        else some ({ s with push := some (.consume x exp) },none)
    | some (.consume x exp) => some ({ s with push := some (.store x) },some exp)
    | some (.store x) =>
      some ({ s with
        payloads := update s.payloads (s.idx x) (some x)
        push := none },none)
  | .consumer n =>
    match s.pop n with
    | .start => some ({ s with pop := update s.pop n (.load 0) },none)
    | .load i =>
      let next := if i < s.cap then
          match s.payloads i with
          | none => .load (i + 1)
          | some exp => .consume i exp
        else .start
      some ({ s with pop := update s.pop n next },none)
    | .consume i exp =>
      some ({ s with pop := update s.pop n (.load (i + 1)) },some exp)

structure Inv : Prop where
  cap : 0 < s.cap
  push : ∀ x exp, s.push = some (.consume x exp) → s.payloads (s.idx x) = some exp

def Present (x : ε) : Prop := ∃ i, i < s.cap ∧ s.payloads i = some x

/-- The entry is in its slot, and the producer is not about to overwrite it. -/
structure InSlot (x : ε) : Prop where
  entry : s.payloads (s.idx x) = some x
  push : ∀ y, s.push = some (.store y) → s.idx y ≠ s.idx x

def Holds (x : ε) : Prop :=
  (∃ p, s.push = some p ∧ p.entry = x) ∨ InSlot s x

variable {ε : Type} {s s' : State ε} {x : ε} {o : Option ε} {m : Mover}

theorem holds_begin (h : Holds s y) (hidle : s.push = none) (x : ε) : Holds (s.begin x) y := by
  rcases h with ⟨p,hp,-⟩ | h
  · rw [hidle] at hp
    cases hp
  · exact .inr ⟨h.entry,by simp [State.begin]⟩

theorem Holds.present (hi : Inv s) (hx : Holds s x) (hidle : s.push = none) : Present s x := by
  rcases hx with ⟨p,hp,-⟩ | h
  · rw [hidle] at hp
    cases hp
  · exact ⟨_,Nat.mod_lt _ hi.cap,h.entry⟩

variable [DecidableEq ε]

theorem consumer_step (h : s.step (.consumer n) = some (s',o)) :
    s'.cap = s.cap ∧ s'.hash = s.hash ∧ s'.payloads = s.payloads ∧ s'.push = s.push := by
  simp only [State.step] at h
  split at h <;> cases h <;> exact ⟨rfl,rfl,rfl,rfl⟩

theorem Inv.step (hi : Inv s) (h : s.step m = some (s',o)) : Inv s' := by
  cases m with
  | consumer =>
    obtain ⟨hcap,hhash,hpayloads,hpush⟩ := consumer_step h
    refine ⟨hcap ▸ hi.cap,?_⟩
    simpa only [State.idx,hcap,hhash,hpayloads,hpush] using hi.push
  | producer =>
    simp only [State.step] at h
    split at h
    next => cases h
    next _ =>
      split at h
      next => cases h; exact ⟨hi.cap,by simp⟩
      next hexp =>
        split at h
        next => cases h; exact ⟨hi.cap,by simp⟩
        next =>
          cases h
          refine ⟨hi.cap,?_⟩
          intro y e hy
          cases hy
          exact hexp
    next => cases h; exact ⟨hi.cap,by simp⟩
    next => cases h; exact ⟨hi.cap,by simp⟩

theorem InSlot.step (hi : Inv s) (hx : InSlot s x) (h : s.step m = some (s',o))
    (hkeep : o ≠ some x) : InSlot s' x := by
  obtain ⟨hentry,hother⟩ := hx
  cases m with
  | consumer =>
    obtain ⟨hcap,hhash,hpayloads,hpush⟩ := consumer_step h
    constructor
    · simpa only [State.idx,hcap,hhash,hpayloads] using hentry
    · simpa only [State.idx,hcap,hhash,hpush] using hother
  | producer =>
    simp only [State.step] at h
    split at h
    next => cases h
    next y hload =>
      split at h
      next hnone =>
        cases h
        refine ⟨hentry,?_⟩
        intro z hz heq
        cases hz
        have heq : s.idx y = s.idx x := heq
        rw [← heq,hnone] at hentry
        cases hentry
      next =>
        split at h <;> cases h <;> exact ⟨hentry,by simp⟩
    next y exp hconsume =>
      cases h
      refine ⟨hentry,?_⟩
      intro z hz heq
      cases hz
      -- What is about to be overwritten has just been written back.
      have heq : s.idx y = s.idx x := heq
      have hexp := hi.push y exp hconsume
      rw [heq,hentry] at hexp
      exact hkeep hexp.symm
    next y hstore =>
      cases h
      exact ⟨(update_of_ne (hother y hstore).symm _ _).trans hentry,by simp⟩

theorem Holds.step (hi : Inv s) (hx : Holds s x) (h : s.step m = some (s',o))
    (hkeep : o ≠ some x) : Holds s' x := by
  rcases hx with ⟨p,hp,hx⟩ | hslot
  · cases m with
    | consumer =>
      obtain ⟨-,-,-,hpush⟩ := consumer_step h
      exact .inl ⟨p,hpush.trans hp,hx⟩
    | producer =>
      subst hx
      simp only [State.step,hp] at h
      cases p with
      | load =>
        simp only at h
        split at h
        next =>
          cases h
          exact .inl ⟨_,rfl,rfl⟩
        next hexp =>
          split at h
          next heq =>
            cases h
            exact .inr ⟨hexp.trans (congrArg some heq),by simp⟩
          next =>
            cases h
            exact .inl ⟨_,rfl,rfl⟩
      | consume =>
        cases h
        exact .inl ⟨_,rfl,rfl⟩
      | store =>
        cases h
        exact .inr ⟨update_self ..,by simp⟩
  · exact .inr (hslot.step hi h hkeep)

end FixedHashSet

/-- The bucket of a thread for one epoch, in the container that was configured. -/
inductive Bucket (ε : Type) where
  | circBuffer (s : FixedCircBuffer.State ε)
  | hashSet (s : FixedHashSet.State ε)

namespace Bucket

def resting : Bucket ε → Bool
  | .circBuffer s => s.push.isNone
  | .hashSet s => s.push.isNone

def begin (b : Bucket ε) (x : ε) : Bucket ε :=
  match b with
  | .circBuffer s => .circBuffer (s.begin x)
  | .hashSet s => .hashSet (s.begin x)

def step [DecidableEq ε] (b : Bucket ε) (m : Mover) : Option (Bucket ε × Option ε) :=
  match b with
  | .circBuffer s => (s.step m).map fun r => (.circBuffer r.1,r.2)
  | .hashSet s => (s.step m).map fun r => (.hashSet r.1,r.2)

def Present : Bucket ε → ε → Prop
  | .circBuffer s => FixedCircBuffer.Present s
  | .hashSet s => FixedHashSet.Present s

def Holds : Bucket ε → ε → Prop
  | .circBuffer s => FixedCircBuffer.Holds s
  | .hashSet s => FixedHashSet.Holds s

def Inv : Bucket ε → Prop
  | .circBuffer s => FixedCircBuffer.Inv s
  | .hashSet s => FixedHashSet.Inv s

/-- Nobody is at the bucket. Its capacity is not zero; its contents are arbitrary. -/
def Quiet : Bucket ε → Prop
  | .circBuffer s => 0 < s.cap ∧ s.popped ≤ s.pushed ∧ s.pushed ≤ s.popped + s.cap ∧
      s.push = none ∧ ∀ n, s.pop n = .start
  | .hashSet s => 0 < s.cap ∧ s.push = none ∧ ∀ n, s.pop n = .start

variable {ε : Type} {b b' : Bucket ε} {x y : ε} {o : Option ε} {m : Mover}

theorem Quiet.inv (h : Quiet b) : Inv b := by
  cases b with
  | circBuffer =>
    obtain ⟨hcap,hle,hroom,hpush,hpop⟩ := h
    refine ⟨hcap,hle,hroom,by simp [hpush],?_⟩
    intro n
    rw [hpop n]
    trivial
  | hashSet =>
    obtain ⟨hcap,hpush,-⟩ := h
    exact ⟨hcap,by simp [hpush]⟩

theorem Quiet.resting (h : Quiet b) : b.resting = true := by
  cases b with
  | circBuffer => simp [Bucket.resting,h.2.2.2.1]
  | hashSet => simp [Bucket.resting,h.2.1]

theorem Inv.begin (h : Inv b) (x : ε) : Inv (b.begin x) := by
  cases b with
  | circBuffer => exact FixedCircBuffer.Inv.begin h x
  | hashSet => exact ⟨h.cap,by simp [FixedHashSet.State.begin]⟩

theorem holds_begin_self (b : Bucket ε) (x : ε) : Holds (b.begin x) x := by
  cases b with
  | circBuffer | hashSet => exact .inl ⟨_,rfl,rfl⟩

theorem Holds.begin (h : Holds b y) (hrest : b.resting) (x : ε) : Holds (b.begin x) y := by
  cases b with
  | circBuffer => exact FixedCircBuffer.holds_begin h (isNone_iff_eq_none.mp hrest) x
  | hashSet => exact FixedHashSet.holds_begin h (isNone_iff_eq_none.mp hrest) x

theorem Holds.present (hi : Inv b) (hx : Holds b x) (hrest : b.resting) : Present b x := by
  cases b with
  | circBuffer => exact FixedCircBuffer.Holds.present hx (isNone_iff_eq_none.mp hrest)
  | hashSet => exact FixedHashSet.Holds.present hi hx (isNone_iff_eq_none.mp hrest)

variable [DecidableEq ε]

theorem Inv.step (hi : Inv b) (h : b.step m = some (b',o)) : Inv b' := by
  cases b with
  | circBuffer =>
    obtain ⟨r,hr,heq⟩ := map_eq_some_iff.mp h
    cases heq
    exact FixedCircBuffer.Inv.step hi hr
  | hashSet =>
    obtain ⟨r,hr,heq⟩ := map_eq_some_iff.mp h
    cases heq
    exact FixedHashSet.Inv.step hi hr

theorem Holds.step (hi : Inv b) (hx : Holds b x) (h : b.step m = some (b',o))
    (hkeep : o ≠ some x) : Holds b' x := by
  cases b with
  | circBuffer =>
    obtain ⟨r,hr,heq⟩ := map_eq_some_iff.mp h
    cases heq
    exact FixedCircBuffer.Holds.step hi hx hr hkeep
  | hashSet =>
    obtain ⟨r,hr,heq⟩ := map_eq_some_iff.mp h
    cases heq
    exact FixedHashSet.Holds.step hi hx hr hkeep

theorem resting_step (hrest : b.resting) (h : b.step m = some (b',o)) : b'.resting := by
  cases b with
  | circBuffer s =>
    obtain ⟨r,hr,heq⟩ := map_eq_some_iff.mp h
    cases heq
    have hnone : s.push = none := isNone_iff_eq_none.mp hrest
    have hsame : r.1.push = s.push := by
      cases m with
      | producer => simp [FixedCircBuffer.State.step,hnone] at hr
      | consumer =>
        simp only [FixedCircBuffer.State.step] at hr
        split at hr <;> cases hr <;> rfl
    simpa [Bucket.resting,hsame] using hrest
  | hashSet s =>
    obtain ⟨r,hr,heq⟩ := map_eq_some_iff.mp h
    cases heq
    have hnone : s.push = none := isNone_iff_eq_none.mp hrest
    have hsame : r.1.push = s.push := by
      cases m with
      | producer => simp [FixedHashSet.State.step,hnone] at hr
      | consumer => exact (FixedHashSet.consumer_step hr).2.2.2
    simpa [Bucket.resting,hsame] using hrest

/-- The moves of threads in `pop_all`, and the entries they write back. -/
def plays (b : Bucket ε) : List Mover → Option (Bucket ε × List ε)
  | [] => some (b,[])
  | m :: ms => do
    let (b,o) ← b.step m
    let (b,written) ← plays b ms
    return (b,o.toList ++ written)

theorem Holds.written_back (hi : Inv b) (hx : Holds b x) (hrest : b.resting)
    (h : plays b ms = some (b',out)) (hgone : ¬Present b' x) : x ∈ out := by
  induction ms generalizing b out with
  | nil =>
    cases h
    exact absurd (hx.present hi hrest) hgone
  | cons _ _ ih =>
    obtain ⟨r,hr,h⟩ := bind_eq_some_iff.mp h
    obtain ⟨q,hq,h⟩ := bind_eq_some_iff.mp h
    cases h
    rw [mem_append,mem_toList]
    by_cases hkeep : r.2 = some x
    · exact .inl hkeep
    · exact .inr (ih (hi.step hr) (hx.step hi hr hkeep) (resting_step hrest hr) hq)

end Bucket

end Montage.ToBePersisted
