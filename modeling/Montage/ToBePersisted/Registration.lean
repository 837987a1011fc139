import Montage.Library.Runs
import Montage.ToBePersisted.Containers

namespace Montage.ToBePersisted
open Function List Option

namespace FixedCircBuffer

variable {ε : Type} {s s' : State ε} {x : ε} {o : Option ε} {m : Mover} {k n : Nat}

theorem step_cap (h : s.step m = some (s',o)) : s'.cap = s.cap := by
  cases m with
  | producer | consumer =>
    simp only [State.step] at h
    split at h <;> cases h <;> rfl

theorem HoldsAt.begin (hk : HoldsAt s x k) (y : ε) : HoldsAt (s.begin y) x k :=
  ⟨hk.lower,hk.upper,hk.entry,by simp [State.begin],hk.pop⟩

def Push.currPushed : Push ε → Nat
  | .pushedRead _ q | .consume _ q _ | .pop _ q _ | .store _ q | .publish _ q => q

theorem push_holds (hi : Inv s) (hpush : s.push = some p) (h : s.step .producer = some (s',o))
    (hdone : s'.push = none) : HoldsAt s' p.entry p.currPushed := by
  simp only [State.step,hpush] at h
  cases p with
  | publish y q =>
    cases h
    obtain ⟨hq,hfree,hentry⟩ := hi.push _ hpush
    refine ⟨hq ▸ hi.le,Nat.lt_succ_self q,hentry,by simp,?_⟩
    intro n p' q' is hn _ hlt
    have hold : Pop.Inv s (.consume p' q' is) := hn ▸ hi.pop n
    have := hold.2.2
    have hlt : q < q' := hlt
    omega
  | _ =>
    cases h
    cases hdone

def State.returns (s : State ε) (n : Nat) : Bool :=
  match s.pop n with
  | .poppedRead p => p = s.pushed
  | .consume p _ [] => s.popped = p
  | _ => false

/-- The consumer will not pop less than entry `k`. -/
def Chases (s : State ε) (n k : Nat) : Prop := ∀ p q is, s.pop n = .consume p q is → k < q

theorem Chases.step (hc : Chases s n k) (hk : HoldsAt s x k) (h : s.step m = some (s',o)) :
    Chases s' n k := by
  intro p q is hpop
  cases m with
  | producer =>
    have hsame : s'.pop = s.pop := by
      simp only [State.step] at h
      split at h <;> cases h <;> rfl
    exact hc p q is (by rwa [hsame] at hpop)
  | consumer n' =>
    by_cases hn : n = n'
    · subst hn
      simp only [State.step] at h
      split at h
      next =>
        cases h
        simp at hpop
      next =>
        cases h
        simp only [update_self] at hpop
        split at hpop
        · cases hpop
        · cases hpop
          exact hk.upper
      next hp' =>
        cases h
        simp only [update_self] at hpop
        cases hpop
        exact hc p q _ hp'
      next =>
        cases h
        simp at hpop
    · have hsame : s'.pop n = s.pop n := by
        simp only [State.step] at h
        split at h <;> cases h <;> exact update_of_ne hn _ _
      exact hc p q is (hsame ▸ hpop)

theorem Chases.not_returns (hc : Chases s n k) (hi : Inv s) (hk : HoldsAt s x k) :
    s.returns n = false := by
  have hlower := hk.lower
  have hupper := hk.upper
  have hinv := hi.pop n
  unfold State.returns
  split
  next p hp =>
    rw [hp] at hinv
    have hinv : p ≤ s.popped := hinv
    simp only [decide_eq_false_iff_not]
    omega
  next p q hp =>
    simp only [decide_eq_false_iff_not]
    intro hpopped
    have hmem := hk.pop n p q [] hp hpopped.symm (hc p q [] hp)
    cases hmem
  next => rfl

end FixedCircBuffer

namespace FixedHashSet

variable {ε : Type} {s s' : State ε} {x : ε} {o : Option ε} {m : Mover} {n : Nat}

theorem InSlot.begin (hx : InSlot s x) (y : ε) : InSlot (s.begin y) x :=
  ⟨hx.entry,by simp [State.begin]⟩

def State.returns (s : State ε) (n : Nat) : Bool :=
  match s.pop n with
  | .load i => s.cap ≤ i
  | _ => false

/-- The consumer has yet to write back what is in the slot of `x`. -/
def Chases (s : State ε) (n : Nat) (x : ε) : Prop :=
  match s.pop n with
  | .start => True
  | .load i => i ≤ s.idx x
  | .consume i exp => i < s.idx x ∨ i = s.idx x ∧ exp = x

theorem Chases.not_returns (hc : Chases s n x) (hi : Inv s) : s.returns n = false := by
  have hlt : s.idx x < s.cap := Nat.mod_lt _ hi.cap
  unfold State.returns
  unfold Chases at hc
  split
  next hp =>
    rw [hp] at hc
    simp only [decide_eq_false_iff_not]
    simp only at hc
    omega
  next => rfl

variable [DecidableEq ε]

theorem step_cap (h : s.step m = some (s',o)) : s'.cap = s.cap ∧ s'.hash = s.hash := by
  cases m with
  | producer =>
    simp only [State.step] at h
    split at h
    next => cases h
    next =>
      split at h
      next => cases h; exact ⟨rfl,rfl⟩
      next => split at h <;> cases h <;> exact ⟨rfl,rfl⟩
    next => cases h; exact ⟨rfl,rfl⟩
    next => cases h; exact ⟨rfl,rfl⟩
  | consumer =>
    obtain ⟨hcap,hhash,-,-⟩ := consumer_step h
    exact ⟨hcap,hhash⟩

theorem push_in_slot (hpush : s.push = some p) (h : s.step .producer = some (s',o))
    (hdone : s'.push = none) : InSlot s' p.entry := by
  simp only [State.step,hpush] at h
  cases p with
  | load =>
    simp only at h
    split at h
    next =>
      cases h
      cases hdone
    next hexp =>
      split at h
      next heq =>
        cases h
        exact ⟨hexp.trans (congrArg some heq),by simp⟩
      next =>
        cases h
        cases hdone
  | consume =>
    cases h
    cases hdone
  | store =>
    cases h
    exact ⟨update_self ..,by simp⟩

theorem Chases.step (hc : Chases s n x) (hx : InSlot s x) (h : s.step m = some (s',o))
    (hkeep : o ≠ some x) : Chases s' n x := by
  obtain ⟨hcap,hhash⟩ := step_cap h
  have hidx : s'.idx x = s.idx x := by simp only [State.idx,hcap,hhash]
  have hother : s'.pop n = s.pop n → Chases s' n x := by
    intro hsame
    unfold Chases
    rw [hsame,hidx]
    exact hc
  cases m with
  | producer =>
    apply hother
    simp only [State.step] at h
    split at h
    next => cases h
    next =>
      split at h
      next => cases h; rfl
      next => split at h <;> cases h <;> rfl
    next => cases h; rfl
    next => cases h; rfl
  | consumer n' =>
    by_cases hn : n = n'
    · subst hn
      unfold Chases at hc ⊢
      rw [hidx]
      simp only [State.step] at h
      split at h
      next =>
        cases h
        simp
      next i hp =>
        cases h
        rw [hp] at hc
        simp only [update_self]
        simp only at hc
        by_cases hi : i < s.cap
        · rw [if_pos hi]
          -- whatever is in the slot of `x` is `x`
          have hslot : i = s.idx x → s.payloads i = some x := fun heq => heq ▸ hx.entry
          cases hpay : s.payloads i with
          | none =>
            have hne : i ≠ s.idx x := by
              intro heq
              cases hpay.symm.trans (hslot heq)
            simp only
            omega
          | some =>
            rcases lt_or_eq_of_le hc with hlt | heq
            · exact .inl hlt
            · exact .inr ⟨heq,some.inj (hpay.symm.trans (hslot heq))⟩
        · rw [if_neg hi]
          trivial
      next hp =>
        cases h
        rw [hp] at hc
        simp only [update_self]
        simp only at hc
        rcases hc with hlt | ⟨-,rfl⟩
        · exact hlt
        · exact absurd rfl hkeep
    · apply hother
      simp only [State.step] at h
      split at h <;> cases h <;> exact update_of_ne hn _ _

end FixedHashSet

namespace Bucket

variable {ε : Type} {b b' : Bucket ε} {x y : ε} {o : Option ε} {m : Mover} {k i n : Nat}

def pushing : Bucket ε → Option ε
  | .circBuffer s => s.push.map FixedCircBuffer.Push.entry
  | .hashSet s => s.push.map FixedHashSet.Push.entry

def target : Bucket ε → Option Nat
  | .circBuffer s => s.push.map fun p => p.currPushed % s.cap
  | .hashSet s => s.push.map fun p => s.idx p.entry

def storing : Bucket ε → Bool
  | .circBuffer s =>
    match s.push with
    | some (.store _ _) => true
    | _ => false
  | .hashSet s =>
    match s.push with
    | some (.store _) => true
    | _ => false

def returns : Bucket ε → Nat → Bool
  | .circBuffer s => s.returns
  | .hashSet s => s.returns

def away : Bucket ε → Nat → Prop
  | .circBuffer s, n => s.pop n = .start
  | .hashSet s, n => s.pop n = .start

/-- `x` is in slot `i`, where a `push` has put it: the one of number `k`, in a circular
buffer. -/
def HeldAt (x : ε) (k i : Nat) : Bucket ε → Prop
  | .circBuffer s => FixedCircBuffer.HoldsAt s x k ∧ k % s.cap = i
  | .hashSet s => FixedHashSet.InSlot s x ∧ s.idx x = i

/-- Thread `n` will come to entry `k`. -/
def Chases (x : ε) (k n : Nat) : Bucket ε → Prop
  | .circBuffer s => FixedCircBuffer.Chases s n k
  | .hashSet s => FixedHashSet.Chases s n x

theorem HeldAt.begin (h : HeldAt x k i b) (y : ε) : HeldAt x k i (b.begin y) := by
  cases b with
  | circBuffer | hashSet => exact ⟨h.1.begin y,h.2⟩

theorem Chases.begin (h : Chases x k n b) (y : ε) : Chases x k n (b.begin y) := by
  cases b with
  | circBuffer | hashSet => exact h

theorem away.chases (h : b.away n) (x : ε) (k : Nat) : Chases x k n b := by
  cases b with
  | circBuffer s =>
    have h : s.pop n = .start := h
    intro p q is hp
    cases h.symm.trans hp
  | hashSet s =>
    have h : s.pop n = .start := h
    show FixedHashSet.Chases s n x
    simp [FixedHashSet.Chases,h]

theorem Chases.not_returns (hc : Chases x k n b) (hi : Inv b) (hx : HeldAt x k i b) :
    b.returns n = false := by
  cases b with
  | circBuffer => exact FixedCircBuffer.Chases.not_returns hc hi hx.1
  | hashSet => exact FixedHashSet.Chases.not_returns hc hi

theorem HeldAt.not_target (hx : HeldAt x k i b) (hi : Inv b) (hs : b.storing = true) :
    b.target ≠ some i := by
  intro ht
  cases b with
  | circBuffer =>
    obtain ⟨hk,rfl⟩ := hx
    have hlower := hk.lower
    have hupper := hk.upper
    simp only [storing] at hs
    split at hs
    next hp =>
      obtain ⟨hq,hfree⟩ := FixedCircBuffer.Inv.push hi _ hp
      simp only [target,hp,map_some,FixedCircBuffer.Push.currPushed,
        some.injEq] at ht
      exact FixedCircBuffer.mod_ne (by omega) (by omega) ht.symm
    next => cases hs
  | hashSet =>
    obtain ⟨hslot,rfl⟩ := hx
    simp only [storing] at hs
    split at hs
    next y hp =>
      simp only [target,hp,map_some,FixedHashSet.Push.entry,some.injEq] at ht
      exact hslot.push y hp ht
    next => cases hs

theorem target_of_pushing (h : b.pushing = some x) : ∃ i, b.target = some i := by
  cases b with
  | circBuffer s =>
    obtain ⟨p,hp,-⟩ := map_eq_some_iff.mp h
    exact ⟨p.currPushed % s.cap,by simp [target,hp]⟩
  | hashSet s =>
    obtain ⟨p,hp,-⟩ := map_eq_some_iff.mp h
    exact ⟨s.idx p.entry,by simp [target,hp]⟩

variable [DecidableEq ε]

theorem HeldAt.step (hi : Inv b) (hx : HeldAt x k i b) (h : b.step m = some (b',o))
    (hkeep : o ≠ some x) : HeldAt x k i b' := by
  cases b with
  | circBuffer =>
    obtain ⟨r,hr,heq⟩ := map_eq_some_iff.mp h
    cases heq
    refine ⟨hx.1.step hi hr hkeep,?_⟩
    rw [FixedCircBuffer.step_cap hr]
    exact hx.2
  | hashSet =>
    obtain ⟨r,hr,heq⟩ := map_eq_some_iff.mp h
    cases heq
    obtain ⟨hcap,hhash⟩ := FixedHashSet.step_cap hr
    refine ⟨hx.1.step hi hr hkeep,?_⟩
    simp only [FixedHashSet.State.idx,hcap,hhash]
    exact hx.2

theorem Chases.step (hc : Chases x k n b) (hx : HeldAt x k i b) (h : b.step m = some (b',o))
    (hkeep : o ≠ some x) : Chases x k n b' := by
  cases b with
  | circBuffer =>
    obtain ⟨r,hr,heq⟩ := map_eq_some_iff.mp h
    cases heq
    exact FixedCircBuffer.Chases.step hc hx.1 hr
  | hashSet =>
    obtain ⟨r,hr,heq⟩ := map_eq_some_iff.mp h
    cases heq
    exact FixedHashSet.Chases.step hc hx.1 hr hkeep

theorem push_held (hi : Inv b) (hpush : b.pushing = some x) (ht : b.target = some i)
    (h : b.step .producer = some (b',o)) (hdone : b'.pushing = none) : ∃ k, HeldAt x k i b' := by
  cases b with
  | circBuffer s =>
    obtain ⟨r,hr,heq⟩ := map_eq_some_iff.mp h
    cases heq
    obtain ⟨p,hp,rfl⟩ := map_eq_some_iff.mp hpush
    have hslot : p.currPushed % s.cap = i := by simpa [target,hp] using ht
    refine ⟨p.currPushed,FixedCircBuffer.push_holds hi hp hr (map_eq_none_iff.mp hdone),?_⟩
    rw [FixedCircBuffer.step_cap hr]
    exact hslot
  | hashSet s =>
    obtain ⟨r,hr,heq⟩ := map_eq_some_iff.mp h
    cases heq
    obtain ⟨p,hp,rfl⟩ := map_eq_some_iff.mp hpush
    have hslot : s.idx p.entry = i := by simpa [target,hp] using ht
    obtain ⟨hcap,hhash⟩ := FixedHashSet.step_cap hr
    refine ⟨0,FixedHashSet.push_in_slot hp hr (map_eq_none_iff.mp hdone),?_⟩
    simp only [FixedHashSet.State.idx,hcap,hhash]
    exact hslot

theorem away.step (ha : b.away n) (hm : m ≠ .consumer n) (h : b.step m = some (b',o)) :
    b'.away n := by
  cases b with
  | circBuffer s =>
    obtain ⟨r,hr,heq⟩ := map_eq_some_iff.mp h
    cases heq
    have hsame : r.1.pop n = s.pop n := by
      cases m with
      | producer =>
        simp only [FixedCircBuffer.State.step] at hr
        split at hr <;> cases hr <;> rfl
      | consumer n' =>
        have hn : n ≠ n' := fun heq => hm (heq ▸ rfl)
        simp only [FixedCircBuffer.State.step] at hr
        split at hr <;> cases hr <;> exact update_of_ne hn _ _
    exact hsame.trans ha
  | hashSet s =>
    obtain ⟨r,hr,heq⟩ := map_eq_some_iff.mp h
    cases heq
    have hsame : r.1.pop n = s.pop n := by
      cases m with
      | producer =>
        simp only [FixedHashSet.State.step] at hr
        split at hr
        next => cases hr
        next =>
          split at hr
          next => cases hr; rfl
          next => split at hr <;> cases hr <;> rfl
        next => cases hr; rfl
        next => cases hr; rfl
      | consumer n' =>
        have hn : n ≠ n' := fun heq => hm (heq ▸ rfl)
        simp only [FixedHashSet.State.step] at hr
        split at hr <;> cases hr <;> exact update_of_ne hn _ _
    exact hsame.trans ha

theorem returns_away (hret : b.returns n = true) (h : b.step (.consumer n) = some (b',o)) :
    b'.away n := by
  cases b with
  | circBuffer =>
    obtain ⟨r,hr,heq⟩ := map_eq_some_iff.mp h
    cases heq
    simp only [returns,FixedCircBuffer.State.returns] at hret
    show r.1.pop n = .start
    split at hret
    next hp =>
      simp only [FixedCircBuffer.State.step,hp] at hr
      cases hr
      simp [of_decide_eq_true hret]
    next hp =>
      simp only [FixedCircBuffer.State.step,hp] at hr
      cases hr
      simp
    next => cases hret
  | hashSet =>
    obtain ⟨r,hr,heq⟩ := map_eq_some_iff.mp h
    cases heq
    simp only [returns,FixedHashSet.State.returns] at hret
    show r.1.pop n = .start
    split at hret
    next hp =>
      simp only [FixedHashSet.State.step,hp] at hr
      cases hr
      have hle := of_decide_eq_true hret
      simp only [update_self,if_neg (not_lt.mpr hle)]
    next => cases hret

end Bucket

namespace Registration
open Library

structure World (ε : Type) where
  bucket : Bucket ε
  calling : Nat → Bool

inductive Act (ε : Type) where
  | push (x : ε)
  | produce
  | popAll (n : Nat)
  | consume (n : Nat)

def init (b : Bucket ε) : World ε := ⟨b,fun _ => false⟩

def Act.mover : Act ε → Option Mover
  | .produce => some .producer
  | .consume n => some (.consumer n)
  | _ => none

def step [DecidableEq ε] (w : World ε) : Act ε → Option (World ε)
  | .push x => if w.bucket.resting then some { w with bucket := w.bucket.begin x } else none
  | .produce => (w.bucket.step .producer).map fun r => { w with bucket := r.1 }
  | .popAll n =>
    if w.calling n then none else some { w with calling := update w.calling n true }
  | .consume n =>
    if w.calling n then
      (w.bucket.step (.consumer n)).map fun r =>
        { bucket := r.1
          calling := if w.bucket.returns n then update w.calling n false else w.calling }
    else none

def written [DecidableEq ε] (w : World ε) (a : Act ε) : Option ε :=
  a.mover.bind fun m => (w.bucket.step m).bind Prod.snd

def Completes (m : Move (World ε) (Act ε)) (x : ε) : Prop :=
  m.act = .produce ∧ m.pre.bucket.pushing = some x ∧ m.post.bucket.pushing = none

def Returns (m : Move (World ε) (Act ε)) (n : Nat) : Prop :=
  m.act = .consume n ∧ m.pre.bucket.returns n = true

def Overwrites (m : Move (World ε) (Act ε)) (i : Nat) : Prop :=
  m.act = .produce ∧ m.pre.bucket.storing = true ∧ m.pre.bucket.target = some i

structure Inv (w : World ε) : Prop where
  bucket : w.bucket.Inv
  away : ∀ n, w.calling n = false → w.bucket.away n

variable {ε : Type} {w w' : World ε} {a : Act ε} {x : ε} {k i n : Nat} {b : Bucket ε}
  {ms : List (Move (World ε) (Act ε))}

theorem init_inv (hb : b.Quiet) : Inv (init b) where
  bucket := hb.inv
  away n _ := by
    cases b with
    | circBuffer => exact hb.2.2.2.2 n
    | hashSet => exact hb.2.2 n

theorem away_begin {y : ε} (h : b.away n) : (b.begin y).away n := by
  cases b with
  | circBuffer | hashSet => exact h

variable [DecidableEq ε]

theorem step_cases (h : step w a = some w') :
    (∃ y, w'.bucket = w.bucket.begin y ∧ a.mover = none) ∨
    (w'.bucket = w.bucket ∧ a.mover = none) ∨
    ∃ m o, a.mover = some m ∧ w.bucket.step m = some (w'.bucket,o) := by
  cases a with
  | push y =>
    simp only [step] at h
    split at h <;> cases h
    exact .inl ⟨y,rfl,rfl⟩
  | produce =>
    obtain ⟨r,hr,rfl⟩ := map_eq_some_iff.mp h
    exact .inr (.inr ⟨_,r.2,rfl,hr⟩)
  | popAll =>
    simp only [step] at h
    split at h <;> cases h
    exact .inr (.inl ⟨rfl,rfl⟩)
  | consume =>
    simp only [step] at h
    split at h
    next =>
      obtain ⟨r,hr,rfl⟩ := map_eq_some_iff.mp h
      exact .inr (.inr ⟨_,r.2,rfl,hr⟩)
    next => cases h

theorem Inv.step (hw : Inv w) (h : step w a = some w') : Inv w' := by
  cases a with
  | push y =>
    simp only [Registration.step] at h
    split at h <;> cases h
    exact ⟨hw.bucket.begin y,fun n hn => away_begin (hw.away n hn)⟩
  | produce =>
    obtain ⟨r,hr,rfl⟩ := map_eq_some_iff.mp h
    exact ⟨hw.bucket.step hr,fun n hn => (hw.away n hn).step (by simp) hr⟩
  | popAll n =>
    simp only [Registration.step] at h
    split at h <;> cases h
    refine ⟨hw.bucket,?_⟩
    intro n' hn'
    by_cases hn : n' = n
    · simp [hn] at hn'
    · exact hw.away n' (by simpa [hn] using hn')
  | consume n =>
    simp only [Registration.step] at h
    split at h
    next hcalling =>
      obtain ⟨r,hr,rfl⟩ := map_eq_some_iff.mp h
      refine ⟨hw.bucket.step hr,?_⟩
      intro n' hn'
      by_cases hn : n' = n
      · subst hn
        simp only at hn'
        split at hn'
        next hret => exact Bucket.returns_away hret hr
        next => cases hcalling.symm.trans hn'
      · have hother : w.calling n' = false := by
          simp only at hn'
          split at hn'
          · simpa [hn] using hn'
          · exact hn'
        exact (hw.away n' hother).step (fun heq => hn (Mover.consumer.inj heq).symm) hr
    next => cases h

theorem written_eq {m : Mover} {o : Option ε} {b' : Bucket ε} (ha : a.mover = some m)
    (hm : w.bucket.step m = some (b',o)) : written w a = o := by
  simp [written,ha,hm]

theorem held_step (hw : Inv w) (hx : w.bucket.HeldAt x k i) (h : step w a = some w')
    (hkeep : written w a ≠ some x) : w'.bucket.HeldAt x k i := by
  rcases step_cases h with ⟨y,hb,-⟩ | ⟨hb,-⟩ | ⟨m,o,ha,hm⟩
  · rw [hb]
    exact hx.begin y
  · rwa [hb]
  · rw [written_eq ha hm] at hkeep
    exact hx.step hw.bucket hm hkeep

theorem chases_step (hx : w.bucket.HeldAt x k i) (hc : w.bucket.Chases x k n)
    (h : step w a = some w') (hkeep : written w a ≠ some x) : w'.bucket.Chases x k n := by
  rcases step_cases h with ⟨y,hb,-⟩ | ⟨hb,-⟩ | ⟨m,o,ha,hm⟩
  · rw [hb]
    exact hc.begin y
  · rwa [hb]
  · rw [written_eq ha hm] at hkeep
    exact hc.step hx hm hkeep

theorem held_run (hw : Inv w) (hx : w.bucket.HeldAt x k i)
    (run : Run step (fun w a => written w a ≠ some x) w ms w') :
    Inv w' ∧ w'.bucket.HeldAt x k i :=
  run.invariant (fun w => Inv w ∧ w.bucket.HeldAt x k i) ⟨hw,hx⟩
    fun _ _ _ hw hkeep h => ⟨hw.1.step h,held_step hw.1 hw.2 h hkeep⟩

theorem chases_run (hw : Inv w) (hx : w.bucket.HeldAt x k i) (hc : w.bucket.Chases x k n)
    (run : Run step (fun w a => written w a ≠ some x) w ms w') : w'.bucket.Chases x k n :=
  (run.invariant (fun w => (Inv w ∧ w.bucket.HeldAt x k i) ∧ w.bucket.Chases x k n)
    ⟨⟨hw,hx⟩,hc⟩ fun _ _ _ hw hkeep h => ⟨⟨hw.1.1.step h,held_step hw.1.1 hw.1.2 h hkeep⟩,
      chases_step hw.1.2 hw.2 h hkeep⟩).2

theorem completed_held {m : Move (World ε) (Act ε)} (hw : Inv m.pre)
    (h : step m.pre m.act = some m.post) (hc : Completes m x)
    (ht : m.pre.bucket.target = some i) : ∃ k, m.post.bucket.HeldAt x k i := by
  obtain ⟨hact,hpush,hdone⟩ := hc
  rw [hact] at h
  obtain ⟨r,hr,heq⟩ := map_eq_some_iff.mp h
  rw [← heq] at hdone ⊢
  exact Bucket.push_held hw.bucket hpush ht hr hdone

theorem run_completed {past later : List (Move (World ε) (Act ε))}
    {m : Move (World ε) (Act ε)} (hb : b.Quiet)
    (run : Run step (fun _ _ => True) (init b) ms w) (hms : ms = past ++ m :: later)
    (hc : Completes m x) (ht : m.pre.bucket.target = some i) :
    Inv m.post ∧ (∃ k, m.post.bucket.HeldAt x k i) ∧
      Run step (fun _ _ => True) m.post later w := by
  have hcut : ms = (past ++ [m]) ++ later := by simpa using hms
  obtain ⟨t,run1,run2⟩ := run.split hcut
  obtain ⟨run0,-,hstep,rfl⟩ := run1.last
  have hw : Inv m.pre := run0.invariant Inv (init_inv hb) fun _ _ _ hw _ h => hw.step h
  exact ⟨hw.step hstep,completed_held hw hstep hc ht,run2⟩

/-- A `pop_all` that starts after a completed `push` does not return before `func` was called
on the entry. -/
theorem returned_written {past mid later rest : List (Move (World ε) (Act ε))}
    {m₁ m₂ m₃ : Move (World ε) (Act ε)} (hb : b.Quiet)
    (run : Run step (fun _ _ => True) (init b) ms w)
    (hms : ms = past ++ m₁ :: (mid ++ m₂ :: (later ++ m₃ :: rest))) (hc : Completes m₁ x)
    (hcall : m₂.act = .popAll n) (hret : Returns m₃ n) :
    ∃ m ∈ mid ++ m₂ :: later, written m.pre m.act = some x := by
  by_contra hnone
  push Not at hnone
  obtain ⟨i,ht⟩ := Bucket.target_of_pushing hc.2.1
  obtain ⟨hw,⟨k,hx⟩,run1⟩ := run_completed hb run hms hc ht
  -- up to the call
  obtain ⟨t,call,run3⟩ := run1.split (append_cons mid m₂ _)
  obtain ⟨run2,-,hstep,rfl⟩ := call.last
  obtain ⟨hw2,hx2⟩ := held_run hw hx (run2.restrict fun m hm => hnone m (by simp [hm]))
  have hkeep := hnone m₂ (by simp)
  have hx3 := held_step hw2 hx2 hstep hkeep
  have hc3 : m₂.post.bucket.Chases x k n := by
    rw [hcall] at hstep
    simp only [step] at hstep
    split at hstep
    next => cases hstep
    next hidle =>
      have haway := hw2.away n (by simpa using hidle)
      rw [← some.inj hstep]
      exact haway.chases x k
  -- from the call to its return
  obtain ⟨t,call,-⟩ := run3.split (append_cons later m₃ rest)
  obtain ⟨run4,-,-,rfl⟩ := call.last
  have run5 : Run step (fun w a => written w a ≠ some x) _ _ _ :=
    run4.restrict fun m hm => hnone m (by simp [hm])
  obtain ⟨hw4,hx4⟩ := held_run (hw2.step hstep) hx3 run5
  have hc4 := chases_run (hw2.step hstep) hx3 hc3 run5
  exact absurd (hret.2.symm.trans (hc4.not_returns hw4.bucket hx4)) (by simp)

/-- The slot of a completed `push` is not stored to before `func` was called on its entry. -/
theorem overwritten_written {past mid rest : List (Move (World ε) (Act ε))}
    {m₁ m₂ : Move (World ε) (Act ε)} (hb : b.Quiet)
    (run : Run step (fun _ _ => True) (init b) ms w)
    (hms : ms = past ++ m₁ :: (mid ++ m₂ :: rest)) (hc : Completes m₁ x)
    (ht : m₁.pre.bucket.target = some i) (hover : Overwrites m₂ i) :
    ∃ m ∈ mid, written m.pre m.act = some x := by
  by_contra hnone
  push Not at hnone
  obtain ⟨hw,⟨k,hx⟩,run1⟩ := run_completed hb run hms hc ht
  obtain ⟨t,store,-⟩ := run1.split (append_cons mid m₂ rest)
  obtain ⟨run2,-,-,rfl⟩ := store.last
  obtain ⟨hw2,hx2⟩ := held_run hw hx (run2.restrict hnone)
  exact hx2.not_target hw2.bucket hover.2.1 hover.2.2

/-- For every bucket of capacity at least one, and every interleaving of the accesses of one
producer and any number of consumers: once a `push` is completed, `func` is called on its
entry before a `pop_all` that starts later returns, and before its slot is stored to again;
and the counters of a circular buffer stay within its capacity. -/
theorem registrations_kept (hb : b.Quiet) (run : Run step (fun _ _ => True) (init b) ms w) :
    (∀ past m₁ mid m₂ later m₃ rest x n,
      ms = past ++ m₁ :: (mid ++ m₂ :: (later ++ m₃ :: rest)) → Completes m₁ x →
      m₂.act = .popAll n → Returns m₃ n →
      ∃ m ∈ mid ++ m₂ :: later, written m.pre m.act = some x) ∧
    (∀ past m₁ mid m₂ rest x i, ms = past ++ m₁ :: (mid ++ m₂ :: rest) → Completes m₁ x →
      m₁.pre.bucket.target = some i → Overwrites m₂ i →
      ∃ m ∈ mid, written m.pre m.act = some x) ∧
    ∀ s, w.bucket = .circBuffer s → s.popped ≤ s.pushed ∧ s.pushed ≤ s.popped + s.cap := by
  refine ⟨?_,?_,?_⟩
  · intro past m₁ mid m₂ later m₃ rest x n hms hc hcall hret
    exact returned_written hb run hms hc hcall hret
  · intro past m₁ mid m₂ rest x i hms hc ht hover
    exact overwritten_written hb run hms hc ht hover
  · intro s hs
    have hw : Inv w := run.invariant Inv (init_inv hb) fun _ _ _ hw _ h => hw.step h
    have hi := hw.bucket
    rw [hs] at hi
    exact ⟨hi.le,hi.room⟩

def ring : Bucket Nat := .circBuffer ⟨1,0,0,fun _ => 0,none,fun _ => .start⟩

def set : Bucket Nat := .hashSet ⟨1,id,fun _ => none,none,fun _ => .start⟩

/-- Entry 5 is pushed into a bucket with one slot. While two threads are in `pop_all`, entry 6 is
pushed and takes its place. -/
def evictRing : List (Act Nat) :=
  [.push 5,.produce,.produce,.produce,.popAll 0,.popAll 1,.consume 0,.consume 1,.consume 0,.push 6,
    .produce,.produce,.consume 1,.produce,.consume 0,.produce,.consume 1,.produce,.consume 0]

def evictSet : List (Act Nat) :=
  [.push 5,.produce,.produce,.popAll 0,.popAll 1,.consume 0,.consume 1,.consume 0,.push 6,.produce,
    .produce,.consume 0,.produce,.consume 1,.consume 1,.consume 0]

theorem registrations_kept_evicted :
    (∃ past m₁ mid m₂ rest, trace step (init ring) evictRing = past ++ m₁ :: (mid ++ m₂ :: rest) ∧
      Completes m₁ 5 ∧ Overwrites m₂ 0 ∧ ∃ m ∈ mid, written m.pre m.act = some 5) ∧
    ∃ past m₁ mid m₂ later m₃ rest,
      trace step (init set) evictSet = past ++ m₁ :: (mid ++ m₂ :: (later ++ m₃ :: rest)) ∧
      Completes m₁ 5 ∧ m₂.act = .popAll 0 ∧ Returns m₃ 0 ∧
      ∃ m ∈ mid ++ m₂ :: later, written m.pre m.act = some 5 := by
  have hring : ring.Quiet := ⟨by decide,by decide,by decide,rfl,fun _ => rfl⟩
  have hset : set.Quiet := ⟨by decide,rfl,fun _ => rfl⟩
  refine ⟨?_,?_⟩
  · obtain ⟨w,hplay⟩ : ∃ w, play step (init ring) evictRing = some w := ⟨_,rfl⟩
    have hparts : trace step (init ring) evictRing = [_,_,_] ++ _ ::
      ([_,_,_,_,_,_,_,_,_,_,_] ++ _ :: [_,_,_]) := rfl
    exact ⟨_,_,_,_,_,hparts,⟨rfl,rfl,rfl⟩,⟨rfl,rfl,rfl⟩,(registrations_kept hring
      (Run.nil.trace hplay)).2.1 _ _ _ _ _ 5 0 hparts ⟨rfl,rfl,rfl⟩ rfl ⟨rfl,rfl,rfl⟩⟩
  · obtain ⟨w,hplay⟩ : ∃ w, play step (init set) evictSet = some w := ⟨_,rfl⟩
    have hparts : trace step (init set) evictSet = [_,_] ++ _ ::
      ([] ++ _ :: ([_,_,_,_,_,_,_,_,_,_,_] ++ _ :: [])) := rfl
    exact ⟨_,_,_,_,_,_,_,hparts,⟨rfl,rfl,rfl⟩,rfl,⟨rfl,rfl⟩,(registrations_kept hset
      (Run.nil.trace hplay)).1 _ _ _ _ _ _ _ 5 0 hparts ⟨rfl,rfl,rfl⟩ rfl ⟨rfl,rfl⟩⟩

end Registration

end Montage.ToBePersisted
