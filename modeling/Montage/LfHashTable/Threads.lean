import Montage.LfHashTable.Invariant
import Montage.Library.Owners

namespace Montage.LfHashTable
open Library

variable {K V : Type} {T : Table K} {s s' : State K V} {th : Pending V}
  {op : Op K V} {tmp : Option Nat} {seen seen' : Option V → Prop}

structure Fresh (s : State K V) (th : Pending V) (op : Op K V) (n : Nat) : Prop where
  unlinked : n ∉ s.committed
  made : n < s.made
  key : s.key n = op.key
  val : op.newVal = some (s.val n)
  mark : (s.word (.node n)).mark = false
  allocs : th.pendingAllocs = [n]

def Own (s : State K V) (th : Pending V) (op : Op K V) : Option Nat → Prop
  | none => op.newVal = none ∧ th.pendingAllocs = []
  | some n => Fresh s th op n

structure Waiting (s : State K V) (th : Pending V) (op : Op K V) (tmp : Option Nat) : Prop where
  own : Own s th op tmp
  retires : th.pendingRetires = []
  done : th.done = none

structure Finished (th : Pending V) (res : Res V) : Prop where
  allocs : th.pendingAllocs = []
  retires : th.pendingRetires = []
  done : th.done = some res

def Working (s : State K V) (th : Pending V) (op : Op K V) (tmp : Option Nat) :
    Option (Res V) → Prop
  | none => Waiting s th op tmp
  | some res => Finished th res

def Node (T : Table K) (s : State K V) (key : K) (c : Nat) : Prop :=
  c ∈ s.committed ∧ T.idx (s.key c) = T.idx key

/-- How the shared part may change under a thread: what is linked keeps its key and value, and
what is marked does not change at all. -/
structure Grows (s s' : State K V) : Prop where
  made : s.made ≤ s'.made
  committed : ∀ n ∈ s.committed, n ∈ s'.committed ∧ s'.key n = s.key n ∧ s'.val n = s.val n
  marked : ∀ n ∈ s.committed, (s.word (.node n)).mark = true →
    s'.word (.node n) = s.word (.node n)

structure Spares (s s' : State K V) (n : Nat) : Prop where
  unlinked : n ∉ s'.committed
  key : s'.key n = s.key n
  val : s'.val n = s.val n
  word : s'.word (.node n) = s.word (.node n)

theorem Grows.refl (s : State K V) : Grows s s :=
  ⟨le_rfl,fun _ h => ⟨h,rfl,rfl⟩,fun _ _ _ => rfl⟩

theorem Fresh.mono (h : Fresh s th op n) (hg : Grows s s') (hn : Spares s s' n) :
    Fresh s' th op n where
  unlinked := hn.unlinked
  made := lt_of_lt_of_le h.made hg.made
  key := hn.key.trans h.key
  val := by rw [hn.val]; exact h.val
  mark := by rw [hn.word]; exact h.mark
  allocs := h.allocs

section
variable (h : Own s th op tmp)
include h

theorem Own.newVal : op.newVal = tmp.map s.val := by
  cases tmp with
  | none => exact h.1
  | some => exact h.val

theorem Own.allocs : th.pendingAllocs = tmp.toList := by
  cases tmp with
  | none => exact h.2
  | some => exact Fresh.allocs h

theorem Own.reads (hop : op.newVal = none) : th.pendingAllocs = [] := by
  cases tmp with
  | none => exact h.2
  | some => exact absurd (hop.symm.trans h.val) (by simp)

theorem Own.makes (hop : op.newVal = some v) : ∃ n, tmp = some n ∧ Fresh s th op n := by
  cases tmp with
  | none => exact absurd (hop.symm.trans h.1) (by simp)
  | some n => exact ⟨n,rfl,h⟩

theorem Own.mono (hg : Grows s s') (hn : ∀ n, tmp = some n → Spares s s' n) : Own s' th op tmp := by
  cases tmp with
  | none => exact h
  | some n => exact Fresh.mono h hg (hn n rfl)

end

theorem Waiting.mono (h : Waiting s th op tmp) (hg : Grows s s')
    (hn : ∀ n, tmp = some n → Spares s s' n) : Waiting s' th op tmp :=
  ⟨h.own.mono hg hn,h.retires,h.done⟩

theorem Working.mono {help : Option (Res V)} (h : Working s th op tmp help) (hg : Grows s s')
    (hn : help = none → ∀ n, tmp = some n → Spares s s' n) : Working s' th op tmp help := by
  cases help with
  | none => exact Waiting.mono h hg (hn rfl)
  | some => exact h

theorem Node.mono (h : Node T s key c) (hg : Grows s s') : Node T s' key c := by
  obtain ⟨hc,hkey,_⟩ := hg.committed c h.1
  exact ⟨hc,by rw [hkey]; exact h.2⟩

theorem Node.marked (h : Node T s key c) (hg : Grows s s') (hw : s.word (.node c) = ⟨next,true⟩) :
    s'.word (.node c) = ⟨next,true⟩ :=
  (hg.marked c h.1 (by rw [hw])).trans hw

def Op.marks : Op K V → Bool
  | .put _ _ | .remove _ | .replace _ _ => true
  | .get _ | .insert _ _ => false

theorem Op.apply_some (h : op.marks = true) (v : V) :
    op.apply (some v) = (.val (some v),op.newVal) := by
  cases op with
  | put | remove | replace => rfl
  | get | insert => cases h

variable [LinearOrder K]

/-- What a thread relies on. The key of its operation has been seen to have the values `seen`
since the call. -/
def At.Inv (T : Table K) (s : State K V) (th : Pending V) (seen : Option V → Prop) (op : Op K V)
    (tmp : Option Nat) : At V → Prop
  | .find help => Working s th op tmp help
  | .scan help prev curr =>
    Working s th op tmp help ∧ Prev T s op.key prev ∧
      (∀ c, curr = some c → Node T s op.key c) ∧ (curr = none → seen none)
  | .check help prev c next =>
    Working s th op tmp help ∧ Prev T s op.key prev ∧ Node T s op.key c ∧
      (∀ x, next.ptr = some x → Node T s op.key x) ∧
      (next.mark = true → s.word (.node c) = next) ∧
      (next.mark = false → (s.key c = op.key → seen (some (s.val c))) ∧
        (s.key c < op.key → next.ptr = none → seen none))
  | .unlink help prev c next =>
    Working s th op tmp help ∧ Prev T s op.key prev ∧ Node T s op.key c ∧
      s.word (.node c) = ⟨next,true⟩
  | .found prev c _ =>
    Waiting s th op tmp ∧ Prev T s op.key prev ∧ Node T s op.key c ∧ s.key c = op.key ∧
      seen (some (s.val c))
  | .mark prev c next new res =>
    (Own s th op tmp ∧ th.pendingRetires = [c] ∧ th.done = none) ∧ Prev T s op.key prev ∧
      Node T s op.key c ∧ s.key c = op.key ∧ op.marks = true ∧ res = .val (some (s.val c)) ∧
      (tmp = none → new = next) ∧
      ∀ n, tmp = some n → new = tmp ∧ s.word (.node n) = ⟨next,false⟩
  | .swing prev c new res =>
    Finished th res ∧ Prev T s op.key prev ∧ Node T s op.key c ∧ s.word (.node c) = ⟨new,true⟩
  | .missed prev curr =>
    Waiting s th op tmp ∧ Prev T s op.key prev ∧
      (∀ c, curr = some c → Node T s op.key c ∧ op.key < s.key c) ∧ seen none
  | .link prev curr res =>
    Waiting s th op tmp ∧ Prev T s op.key prev ∧
      (∀ c, curr = some c → Node T s op.key c ∧ op.key < s.key c) ∧
      (∃ n, tmp = some n ∧ s.word (.node n) = ⟨curr,false⟩) ∧ op.apply none = (res,op.newVal)
  | .returned res =>
    th.pendingAllocs = [] ∧ th.pendingRetires = [] ∧
      (th.done = some res ∨ th.done = none ∧ ∃ v, seen v ∧ op.apply v = (res,v))

def Pc.Inv (T : Table K) (s : State K V) (th : Pending V) (seen : Option V → Prop) :
    Pc K V → Prop
  | .idle => th.pendingAllocs = [] ∧ th.pendingRetires = []
  | .run op tmp here => here.Inv T s th seen op tmp

def At.early : At V → Bool
  | .find none | .scan none _ _ | .check none _ _ _ | .unlink none _ _ _ => true
  | .found _ _ _ | .mark _ _ _ _ _ | .missed _ _ | .link _ _ _ => true
  | .find (some _) | .scan (some _) _ _ | .check (some _) _ _ _ | .unlink (some _) _ _ _ => false
  | .swing _ _ _ _ | .returned _ => false

def Pc.fresh : Pc K V → Option Nat
  | .idle => none
  | .run _ tmp here => if here.early then tmp else none

structure Inv (T : Table K) (seen : Nat → Option V → Prop) (s : State K V) : Prop
    extends Core T s where
  threads : ∀ t, (s.thread t).pc.Inv T s (s.thread t).toPending (seen t)
  own : Apart (fun th : Thread K V => th.pc.fresh) s.thread

theorem Prev.mono (h : Prev T s key x) (hg : Grows s s') : Prev T s' key x := by
  cases x with
  | bucket => exact ⟨trivial,h.2.1,fun p hp => by cases hp⟩
  | node p =>
    obtain ⟨hp,hkey,_⟩ := hg.committed p h.1
    refine ⟨hp,?_,?_⟩
    · rw [home,hkey]
      exact h.2.1
    · intro q hq
      cases hq
      rw [hkey]
      exact h.2.2 p rfl

theorem above_mono (h : Node T s key c ∧ key < s.key c) (hg : Grows s s') :
    Node T s' key c ∧ key < s'.key c :=
  ⟨h.1.mono hg,by rw [(hg.committed c h.1.1).2.1]; exact h.2⟩

theorem At.Inv.mono {here : At V} (h : here.Inv T s th seen op tmp) (hg : Grows s s')
    (hseen : ∀ v, seen v → seen' v)
    (hn : here.early = true → ∀ n, tmp = some n → Spares s s' n) :
    here.Inv T s' th seen' op tmp := by
  cases here with
  | find =>
    exact Working.mono h hg fun hh => hn (by rw [hh]; rfl)
  | scan =>
    obtain ⟨hwork,hprev,hcurr,hnull⟩ := h
    exact ⟨hwork.mono hg fun hh => hn (by rw [hh]; rfl),hprev.mono hg,
      fun c hc => (hcurr c hc).mono hg,fun hc => hseen _ (hnull hc)⟩
  | check _ _ c =>
    obtain ⟨hwork,hprev,hc,hnext,hmarked,hopen⟩ := h
    obtain ⟨_,hkey,hval⟩ := hg.committed c hc.1
    refine ⟨hwork.mono hg fun hh => hn (by rw [hh]; rfl),hprev.mono hg,hc.mono hg,
      fun x hx => (hnext x hx).mono hg,?_,?_⟩
    · intro hm
      have hw := hmarked hm
      exact (hg.marked c hc.1 (by rw [hw,hm])).trans hw
    · intro hm
      rw [hkey,hval]
      exact ⟨fun heq => hseen _ ((hopen hm).1 heq),fun hlt hnull => hseen _ ((hopen hm).2 hlt hnull)⟩
  | unlink =>
    obtain ⟨hwork,hprev,hc,hw⟩ := h
    exact ⟨hwork.mono hg fun hh => hn (by rw [hh]; rfl),hprev.mono hg,hc.mono hg,hc.marked hg hw⟩
  | found _ c =>
    obtain ⟨hwait,hprev,hc,hkey,hv⟩ := h
    obtain ⟨_,hkey',hval⟩ := hg.committed c hc.1
    exact ⟨hwait.mono hg (hn rfl),hprev.mono hg,hc.mono hg,hkey'.trans hkey,hval ▸ hseen _ hv⟩
  | mark _ c =>
    obtain ⟨⟨hown,hretires,hdone⟩,hprev,hc,hkey,hmarks,hres,hnone,hsome⟩ := h
    obtain ⟨_,hkey',hval⟩ := hg.committed c hc.1
    refine ⟨⟨hown.mono hg (hn rfl),hretires,hdone⟩,hprev.mono hg,hc.mono hg,hkey'.trans hkey,
      hmarks,hval ▸ hres,hnone,?_⟩
    intro n htmp
    exact ⟨(hsome n htmp).1,(hn rfl n htmp).word.trans (hsome n htmp).2⟩
  | swing =>
    obtain ⟨hfin,hprev,hc,hw⟩ := h
    exact ⟨hfin,hprev.mono hg,hc.mono hg,hc.marked hg hw⟩
  | missed =>
    obtain ⟨hwait,hprev,hcurr,hv⟩ := h
    exact ⟨hwait.mono hg (hn rfl),hprev.mono hg,fun c hc => above_mono (hcurr c hc) hg,hseen _ hv⟩
  | link =>
    obtain ⟨hwait,hprev,hcurr,⟨n,htmp,hw⟩,hres⟩ := h
    exact ⟨hwait.mono hg (hn rfl),hprev.mono hg,fun c hc => above_mono (hcurr c hc) hg,
      ⟨n,htmp,(hn rfl n htmp).word.trans hw⟩,hres⟩
  | returned =>
    obtain ⟨hallocs,hretires,hdone⟩ := h
    refine ⟨hallocs,hretires,?_⟩
    rcases hdone with hdone | ⟨hdone,v,hv,hres⟩
    · exact .inl hdone
    · exact .inr ⟨hdone,v,hseen _ hv,hres⟩

theorem Pc.Inv.mono {pc : Pc K V} (h : pc.Inv T s th seen) (hg : Grows s s')
    (hseen : ∀ v, seen v → seen' v) (hn : ∀ n, pc.fresh = some n → Spares s s' n) :
    pc.Inv T s' th seen' := by
  cases pc with
  | idle => exact h
  | run =>
    refine At.Inv.mono h hg hseen fun hearly n htmp => hn n ?_
    rw [Pc.fresh,if_pos hearly]
    exact htmp

theorem At.Inv.own {here : At V} (h : here.Inv T s th seen op tmp) (hearly : here.early = true) :
    Own s th op tmp := by
  cases here with
  | find help =>
    cases help with
    | none => exact Waiting.own h
    | some => cases hearly
  | scan help | check help | unlink help =>
    cases help with
    | none => exact Waiting.own h.1
    | some => cases hearly
  | found | missed | link => exact h.1.own
  | mark => exact h.1.1
  | swing | returned => cases hearly

theorem Pc.Inv.of_fresh {pc : Pc K V} (h : pc.Inv T s th seen) (hn : pc.fresh = some n) :
    ∃ op, Fresh s th op n := by
  cases pc with
  | idle => cases hn
  | run op =>
    rw [Pc.fresh] at hn
    split at hn
    next hearly =>
      subst hn
      exact ⟨op,At.Inv.own h hearly⟩
    next => cases hn

variable {seen seen' : Nat → Option V → Prop} {t : Nat} {th : Thread K V}

section
variable (h : Inv T seen s)
include h

theorem Inv.fresh (hn : (s.thread u).pc.fresh = some n) : n ∉ s.committed ∧ n < s.made := by
  obtain ⟨_,hfresh⟩ := (h.threads u).of_fresh hn
  exact ⟨hfresh.unlinked,hfresh.made⟩

theorem Inv.running {here : At V} (hpc : (s.thread t).pc = .run op tmp here) :
    here.Inv T s (s.thread t).toPending (seen t) op tmp := by
  have ht := h.threads t
  rw [hpc] at ht
  exact ht

/-- A step of thread `t` keeps the invariant if it keeps the lists, what `t` itself relies on
holds again, and the nodes of the others are spared. -/
theorem Inv.move (hcore : Core T s') (hg : Grows s s')
    (hupdate : s'.thread = Function.update s.thread t th)
    (hseen : ∀ u, u ≠ t → ∀ v, seen u v → seen' u v) (hth : th.pc.Inv T s' th.toPending (seen' t))
    (hown : ∀ n, th.pc.fresh = some n → (s.thread t).pc.fresh = some n ∨ s.made ≤ n)
    (hspare : ∀ u n, u ≠ t → (s.thread u).pc.fresh = some n → Spares s s' n) :
    Inv T seen' s' := by
  refine ⟨hcore,?_,?_⟩
  · rw [hupdate]
    exact update_each (P := fun u (th : Thread K V) => th.pc.Inv T s th.toPending (seen u))
      (Q := fun u (th : Thread K V) => th.pc.Inv T s' th.toPending (seen' u)) h.threads hth fun u hu hold =>
      hold.mono hg (hseen u hu) fun n hn => hspare u n hu hn
  · rw [hupdate]
    refine h.own.update fun u n hu hn heq => ?_
    rcases hown n heq with hold | hnew
    · exact hu (h.own u t n hn hold)
    · have := (h.fresh hn).2
      omega

theorem Inv.put (hth : th.pc.Inv T s th.toPending (seen t))
    (hown : ∀ n, th.pc.fresh = some n → (s.thread t).pc.fresh = some n) :
    Inv T seen (s.put t th) := by
  have hg : Grows s (s.put t th) := { Grows.refl s with }
  have hspare : ∀ n, n ∉ s.committed → Spares s (s.put t th) n := fun n hn => ⟨hn,rfl,rfl,rfl⟩
  refine h.move { h.toCore with } hg rfl (fun _ _ _ => id) ?_ (fun n hn => .inl (hown n hn))
    fun u n _ hn => hspare n (h.fresh hn).1
  refine hth.mono hg (fun _ => id) fun n hn => ?_
  obtain ⟨_,hfresh⟩ := hth.of_fresh hn
  exact hspare n hfresh.unlinked

theorem Inv.goto {here here' : At V} (hpc : (s.thread t).pc = .run op tmp here)
    (hnew : here'.Inv T s (s.thread t).toPending (seen t) op tmp)
    (hearly : here'.early = true → here.early = true) :
    Inv T seen (s.goto t (.run op tmp here')) := by
  refine h.put hnew ?_
  intro n hn
  simp only [Pc.fresh] at hn
  split at hn
  next hyes => rw [hpc,Pc.fresh,if_pos (hearly hyes),hn]
  next => cases hn

theorem Inv.shift (hcore : Core T s') (hg : Grows s s')
    (hthread : s'.thread = s.thread) (hspare : ∀ n, n ∉ s.committed → Spares s s' n) :
    Inv T seen s' where
  toCore := hcore
  threads t := by
    rw [hthread]
    exact (h.threads t).mono hg (fun _ => id) fun n hn => hspare n (h.fresh hn).1
  own := by
    rw [hthread]
    exact h.own

theorem Inv.see (hseen : ∀ u v, seen u v → seen' u v) : Inv T seen' s where
  toCore := h.toCore
  threads u := (h.threads u).mono (Grows.refl s) (hseen u) fun _ hn =>
    ⟨(h.fresh hn).1,rfl,rfl,rfl⟩
  own := h.own

end

end Montage.LfHashTable
