import Montage.Library.Owners
import Montage.MSQueue.Model

namespace Montage.MSQueue
open Library Function

variable {V : Type}

def Pc.fresh : Pc V → Option Nat
  | .enqueue n | .enqTail n _ | .enqSn n _ _ | .enqNext n _ _ _ | .enqSet n _ _ | .enqCas n _
  | .enqSwing n _ _ => some n
  | _ => none

variable (o : List Nat) (hd tl : Nat) (s : State V) (th : Thread V)

structure Fresh (n : Nat) : Prop where
  unlinked : n ∉ o
  made : n < s.made
  next : s.next n = none
  payload : s.payload n = some n
  val : s.val n = th.arg
  arg : th.arg ≠ none
  allocs : th.pendingAllocs = [n]
  retires : th.pendingRetires = []
  done : th.done = none

def Calm : Prop := th.pendingAllocs = [] ∧ th.pendingRetires = []

def Behind (tail sn : Nat) : Prop :=
  sn < s.globalSn ∧ ∃ i : Nat, o[i]? = some tail ∧ (0 < i → s.sn tail < sn)

/-- What a thread relies on. The nodes that have been linked are, in this order, `o`; the head
is at position `hd` of it and the tail at `tl`. -/
def Pc.Inv : Pc V → Prop
  | .idle => Calm th
  | .enqueue n => Fresh o s th n
  | .enqTail n tail => Fresh o s th n ∧ ∃ i : Nat, o[i]? = some tail
  | .enqSn n tail sn | .enqSet n tail sn => Fresh o s th n ∧ Behind o s tail sn
  | .enqNext n tail sn next =>
    Fresh o s th n ∧ Behind o s tail sn ∧ ∀ x, next = some x → s.next tail = some x
  | .enqCas n tail => Fresh o s th n ∧ Behind o s tail (s.sn n)
  | .enqSwing n tail x => Fresh o s th n ∧ (∃ i : Nat, o[i]? = some tail) ∧ s.next tail = some x
  | .enqLink n tail =>
    Calm th ∧ (∃ v, th.arg = some v ∧ th.done = some (.enq v)) ∧
      (∃ i : Nat, o[i]? = some tail) ∧ s.next tail = some n
  | .enqueued => Calm th ∧ ∃ v, th.arg = some v ∧ th.done = some (.enq v)
  | .dequeue => Calm th ∧ th.done = none
  | .deqHead head => Calm th ∧ th.done = none ∧ ∃ i ≤ hd, o[i]? = some head
  | .deqTail head tail =>
    Calm th ∧ th.done = none ∧ ∃ i ≤ hd, o[i]? = some head ∧
      ∃ j, i ≤ j ∧ j ≤ tl ∧ o[j]? = some tail
  | .deqNext head tail next =>
    Calm th ∧ th.done = none ∧ (∃ i ≤ hd, o[i]? = some head ∧
      ∃ j, i ≤ j ∧ j ≤ tl ∧ o[j]? = some tail) ∧
    (∀ x, next = some x → s.next head = some x) ∧
      (next = none → head = tail ∧ th.sawEmpty = true)
  | .deqSwing tail x =>
    Calm th ∧ th.done = none ∧ (∃ i : Nat, o[i]? = some tail) ∧ s.next tail = some x
  | .deqTake head n =>
    Calm th ∧ th.done = none ∧ s.next head = some n ∧ ∃ i ≤ hd, o[i]? = some head ∧ i < tl
  | .deqCas head n p =>
    th.pendingAllocs = [] ∧ th.pendingRetires = [p] ∧ th.done = none ∧ s.next head = some n ∧
      ∃ i ≤ hd, o[i]? = some head ∧ i < tl ∧ (i = hd → p = n)
  | .deqVal head p =>
    Calm th ∧ (∃ i < hd, o[i]? = some head) ∧ p < s.made ∧
      ∃ v, s.val p = some v ∧ th.done = some (.deq v)
  | .deqWrite head _ v => Calm th ∧ (∃ i < hd, o[i]? = some head) ∧ th.done = some (.deq v)
  | .dequeued (some v) => Calm th ∧ th.done = some (.deq v)
  | .dequeued none => Calm th ∧ th.done = none ∧ th.sawEmpty = true
  | .crashed => False

/-- The shared part of the queue. Up to the head, a payload lives on in the node before its
own. -/
structure Core : Prop where
  distinct : o.Nodup
  made : ∀ x ∈ o, x < s.made
  links : ∀ (i : Nat) x, o[i]? = some x → s.next x = o[i + 1]?
  head : o[hd]? = some s.head
  tail : o[tl]? = some s.tail
  order : hd ≤ tl
  payload : ∀ i x, hd < i → o[i]? = some x → s.payload x = some x
  kept : ∀ (i : Nat) x, 0 < i → o[i]? = some x → s.payload x ≠ none
  val : ∀ (i : Nat) x, 0 < i → o[i]? = some x → s.val x ≠ none
  increasing : ∀ (i j : Nat) x y, 0 < i → i < j → o[i]? = some x → o[j]? = some y → s.sn x < s.sn y
  bound : ∀ (i : Nat) x, 0 < i → o[i]? = some x → s.sn x < s.globalSn
  committed : ∀ p, p ∈ s.committed ↔ ∃ i : Nat, 0 < i ∧ o[i]? = some p
  retired : ∀ p, p ∈ s.retired ↔ ∃ i : Nat, 0 < i ∧ i ≤ hd ∧ o[i]? = some p

structure Inv : Prop extends Core o hd tl s where
  threads : ∀ t, (s.thread t).pc.Inv o hd tl s (s.thread t)
  own : Apart (fun th : Thread V => th.pc.fresh) s.thread

/-- How the shared part may change under a thread: nodes are added at the end, head and tail
go forward, and pointers that are set stay. -/
structure Grows (o : List Nat) (hd tl : Nat) (s : State V) (o' : List Nat) (hd' tl' : Nat)
    (s' : State V) : Prop where
  nodes : ∀ (i : Nat) x, o[i]? = some x → o'[i]? = some x
  head : hd ≤ hd'
  tail : tl ≤ tl'
  drawn : s.globalSn ≤ s'.globalSn
  made : s.made ≤ s'.made
  next : ∀ (i : Nat) x y, o[i]? = some x → s.next x = some y → s'.next x = some y
  sn : ∀ (i : Nat) x, o[i]? = some x → s'.sn x = s.sn x
  val : ∀ x < s.made, s'.val x = s.val x

structure Spares (s : State V) (o' : List Nat) (s' : State V) (n : Nat) : Prop where
  unlinked : n ∉ o'
  next : s'.next n = s.next n
  payload : s'.payload n = s.payload n
  sn : s'.sn n = s.sn n

variable {o o' : List Nat} {hd tl hd' tl' : Nat} {s s' : State V} {th : Thread V}

theorem Grows.refl (o : List Nat) (hd tl : Nat) (s : State V) : Grows o hd tl s o hd tl s :=
  ⟨fun _ _ h => h,le_rfl,le_rfl,le_rfl,le_rfl,fun _ _ _ _ h => h,
    fun _ _ _ => rfl,fun _ _ => rfl⟩

theorem Fresh.mono (h : Fresh o s th n) (hg : Grows o hd tl s o' hd' tl' s')
    (hn : Spares s o' s' n) : Fresh o' s' th n where
  unlinked := hn.unlinked
  made := lt_of_lt_of_le h.made hg.made
  next := hn.next.trans h.next
  payload := hn.payload.trans h.payload
  val := (hg.val n h.made).trans h.val
  arg := h.arg
  allocs := h.allocs
  retires := h.retires
  done := h.done

theorem Behind.mono (h : Behind o s tail sn) (hg : Grows o hd tl s o' hd' tl' s') :
    Behind o' s' tail sn := by
  obtain ⟨hsn,i,hi,hlt⟩ := h
  refine ⟨lt_of_lt_of_le hsn hg.drawn,i,hg.nodes i tail hi,?_⟩
  rw [hg.sn i tail hi]
  exact hlt

theorem Pc.Inv.mono {pc : Pc V} (h : pc.Inv o hd tl s th) (hg : Grows o hd tl s o' hd' tl' s')
    (hn : ∀ n, pc.fresh = some n → Spares s o' s' n) : pc.Inv o' hd' tl' s' th := by
  have hhead := hg.head
  have htail := hg.tail
  cases pc with
  | idle | enqueued | dequeue => exact h
  | enqueue n => exact Fresh.mono h hg (hn n rfl)
  | enqTail n tail =>
    obtain ⟨hf,i,hi⟩ := h
    exact ⟨hf.mono hg (hn n rfl),i,hg.nodes i tail hi⟩
  | enqSn n | enqSet n => exact ⟨h.1.mono hg (hn n rfl),h.2.mono hg⟩
  | enqNext n =>
    obtain ⟨hf,hbehind,hx⟩ := h
    obtain ⟨_,i,hi,_⟩ := id hbehind
    exact ⟨hf.mono hg (hn n rfl),hbehind.mono hg,fun x h => hg.next i _ _ hi (hx x h)⟩
  | enqCas n =>
    refine ⟨h.1.mono hg (hn n rfl),?_⟩
    rw [(hn n rfl).sn]
    exact h.2.mono hg
  | enqSwing n tail =>
    obtain ⟨hf,⟨i,hi⟩,hx⟩ := h
    exact ⟨hf.mono hg (hn n rfl),⟨i,hg.nodes i tail hi⟩,hg.next i _ _ hi hx⟩
  | enqLink n tail | deqSwing tail =>
    obtain ⟨hcalm,hdone,⟨i,hi⟩,hx⟩ := h
    exact ⟨hcalm,hdone,⟨i,hg.nodes i tail hi⟩,hg.next i _ _ hi hx⟩
  | deqHead head =>
    obtain ⟨hcalm,hdone,i,hle,hi⟩ := h
    exact ⟨hcalm,hdone,i,by omega,hg.nodes i head hi⟩
  | deqTail head tail =>
    obtain ⟨hcalm,hdone,i,hle,hi,j,hij,hj,htl⟩ := h
    exact ⟨hcalm,hdone,i,by omega,hg.nodes i head hi,j,hij,by omega,hg.nodes j tail htl⟩
  | deqNext head tail =>
    obtain ⟨hcalm,hdone,⟨i,hle,hi,j,hij,hj,htl⟩,hnext,hempty⟩ := h
    exact ⟨hcalm,hdone,⟨i,by omega,hg.nodes i head hi,j,hij,by omega,hg.nodes j tail htl⟩,
      fun x hx => hg.next i _ _ hi (hnext x hx),hempty⟩
  | deqTake head =>
    obtain ⟨hcalm,hdone,hx,i,hle,hi,hlt⟩ := h
    exact ⟨hcalm,hdone,hg.next i _ _ hi hx,i,by omega,hg.nodes i head hi,by omega⟩
  | deqCas head =>
    obtain ⟨hallocs,hretires,hdone,hx,i,hle,hi,hlt,hp⟩ := h
    exact ⟨hallocs,hretires,hdone,hg.next i _ _ hi hx,i,by omega,hg.nodes i head hi,by omega,
      fun heq => hp (by omega)⟩
  | deqVal head p =>
    obtain ⟨hcalm,⟨i,hlt,hi⟩,hmade,hv⟩ := h
    exact ⟨hcalm,⟨i,by omega,hg.nodes i head hi⟩,lt_of_lt_of_le hmade hg.made,
      hg.val p hmade ▸ hv⟩
  | deqWrite head =>
    obtain ⟨hcalm,⟨i,hlt,hi⟩,hdone⟩ := h
    exact ⟨hcalm,⟨i,by omega,hg.nodes i head hi⟩,hdone⟩
  | dequeued res => cases res <;> exact h
  | crashed => exact h

theorem Pc.Inv.of_fresh {pc : Pc V} (h : pc.Inv o hd tl s th) (hn : pc.fresh = some n) :
    Fresh o s th n := by
  cases pc with
  | enqueue => cases hn; exact h
  | enqTail | enqSn | enqNext | enqSet | enqCas | enqSwing => cases hn; exact h.1
  | _ => cases hn

theorem Fresh.see (h : Fresh o s th n) (b : Bool) :
    Fresh o s { th with sawEmpty := th.sawEmpty || b } n := { h with }

theorem Pc.Inv.see {pc : Pc V} (h : pc.Inv o hd tl s th) (b : Bool) :
    pc.Inv o hd tl s { th with sawEmpty := th.sawEmpty || b } := by
  cases pc with
  | enqueue => exact Fresh.see h b
  | enqTail | enqSn | enqNext | enqSet | enqCas | enqSwing => exact ⟨h.1.see b,h.2⟩
  | deqNext =>
    obtain ⟨hcalm,hdone,hpos,hnext,hempty⟩ := h
    refine ⟨hcalm,hdone,hpos,hnext,fun hx => ⟨(hempty hx).1,?_⟩⟩
    simp [(hempty hx).2]
  | dequeued res =>
    cases res with
    | some => exact h
    | none => exact ⟨h.1,h.2.1,by simp [h.2.2]⟩
  | _ => exact h

theorem Inv.note (h : Inv o hd tl s) : Inv o hd tl s.note where
  toCore := { h.toCore with }
  threads t := ((h.threads t).see _).mono { Grows.refl o hd tl s with } fun _ hn =>
    ⟨((h.threads t).of_fresh hn).unlinked,rfl,rfl,rfl⟩
  own := h.own

/-- A step of thread `t` keeps the invariant if it keeps the shared part, what `t` itself
relies on holds again, and the nodes of the others are spared. -/
theorem Inv.move (h : Inv o hd tl s) (hcore : Core o' hd' tl' s')
    (hg : Grows o hd tl s o' hd' tl' s') (hupdate : s'.thread = update s.thread t th)
    (hth : th.pc.Inv o' hd' tl' s' th)
    (hown : ∀ n, th.pc.fresh = some n → (s.thread t).pc.fresh = some n ∨ s.made ≤ n)
    (hspare : ∀ u n, u ≠ t → (s.thread u).pc.fresh = some n → Spares s o' s' n) :
    Inv o' hd' tl' s' := by
  refine ⟨hcore,?_,?_⟩
  · rw [hupdate]
    exact update_each (P := fun _ (th : Thread V) => th.pc.Inv o hd tl s th)
      (Q := fun _ (th : Thread V) => th.pc.Inv o' hd' tl' s' th) h.threads hth fun u hu hold =>
      hold.mono hg fun n hn => hspare u n hu hn
  · rw [hupdate]
    refine h.own.update fun u n hu hn heq => ?_
    rcases hown n heq with hold | hnew
    · exact hu (h.own u t n hn hold)
    · have := ((h.threads u).of_fresh hn).made
      omega

theorem Inv.put (h : Inv o hd tl s) (hth : th.pc.Inv o hd tl s th)
    (hown : ∀ n, th.pc.fresh = some n → (s.thread t).pc.fresh = some n) :
    Inv o hd tl (s.put t th) := by
  have hg : Grows o hd tl s o hd tl (s.put t th) := { Grows.refl o hd tl s with }
  have hspare : ∀ n, n ∉ o → Spares s o (s.put t th) n := fun n hn => ⟨hn,rfl,rfl,rfl⟩
  have hmine : ∀ n, th.pc.fresh = some n → Spares s o (s.put t th) n := fun n hn =>
    hspare n (hth.of_fresh hn).unlinked
  exact h.move { h.toCore with } hg rfl (hth.mono hg hmine) (fun n hn => .inl (hown n hn))
    fun u n _ hn => hspare n ((h.threads u).of_fresh hn).unlinked

theorem Pc.Inv.at {pc : Pc V} (h : pc.Inv o hd tl s th) (pc' : Pc V) :
    pc.Inv o hd tl s { th with pc := pc' } := by
  cases pc with
  | enqueue n => exact { (h : Fresh o s th n) with }
  | enqTail | enqSn | enqNext | enqSet | enqCas | enqSwing => exact ⟨{ h.1 with },h.2⟩
  | dequeued res => cases res <;> exact h
  | _ => exact h

theorem Inv.goto (h : Inv o hd tl s) {pc : Pc V} (hpc : pc.Inv o hd tl s (s.thread t))
    (hown : ∀ n, pc.fresh = some n → (s.thread t).pc.fresh = some n) :
    Inv o hd tl (s.goto t pc) :=
  h.put (hpc.at pc) hown

theorem Inv.shift (h : Inv o hd tl s) (hcore : Core o hd' tl' s')
    (hg : Grows o hd tl s o hd' tl' s') (hthread : s'.thread = s.thread)
    (hspare : ∀ n, n ∉ o → Spares s o s' n) : Inv o hd' tl' s' where
  toCore := hcore
  threads t := by
    rw [hthread]
    exact (h.threads t).mono hg fun n hn => hspare n ((h.threads t).of_fresh hn).unlinked
  own := by
    rw [hthread]
    exact h.own

theorem Core.position (h : Core o hd tl s) {i j : Nat} (hi : o[i]? = some x)
    (hj : o[j]? = some x) : i = j := by
  obtain ⟨hlt,_⟩ := List.getElem?_eq_some_iff.mp hi
  exact (List.getElem?_inj hlt h.distinct).mp (hi.trans hj.symm)

theorem Inv.swing (h : Inv o hd tl s) {i : Nat} (hi : o[i]? = some tail)
    (hnext : s.next tail = some x) : ∃ tl', Inv o hd tl' (s.swing tail x) := by
  by_cases htail : s.tail = tail
  · have hpos : tl = i := h.position (htail ▸ h.tail) hi
    have hx : o[tl + 1]? = some x := by
      rw [hpos,← h.links i tail hi]
      exact hnext
    have hcore : Core o hd (tl + 1) (s.swing tail x) := { h.toCore with
      tail := by simp only [State.swing,if_pos htail]; exact hx
      order := by have := h.order; omega }
    have hg : Grows o hd tl s o hd (tl + 1) (s.swing tail x) :=
      { Grows.refl o hd tl s with tail := by omega }
    exact ⟨tl + 1,h.shift hcore hg rfl fun n hn => ⟨hn,rfl,rfl,rfl⟩⟩
  · refine ⟨tl,?_⟩
    have hsame : s.swing tail x = s := by simp [State.swing,htail]
    rw [hsame]
    exact h

theorem Inv.draw (h : Inv o hd tl s) : Inv o hd tl { s with globalSn := s.globalSn + 1 } :=
  h.shift
    { h.toCore with bound := fun i x hi hx => Nat.lt_succ_of_lt (h.bound i x hi hx) }
    { Grows.refl o hd tl s with drawn := Nat.le_succ _ } rfl fun _ hn => ⟨hn,rfl,rfl,rfl⟩

theorem Inv.take_over (h : Inv o hd tl s) {i : Nat} (hlt : i < hd) (hi : o[i]? = some head) :
    Inv o hd tl { s with payload := update s.payload head (some p) } := by
  have hcore : Core o hd tl { s with payload := update s.payload head (some p) } :=
    { h.toCore with
      payload := by
        intro j x hj hx
        have hne : x ≠ head := by
          intro heq
          have := h.position (heq ▸ hx) hi
          omega
        exact (update_of_ne hne _ _).trans (h.payload j x hj hx)
      kept := by
        intro j x hj hx
        by_cases heq : x = head
        · simp [heq]
        · exact ne_of_eq_of_ne (update_of_ne heq _ _) (h.kept j x hj hx) }
  refine h.shift hcore { Grows.refl o hd tl s with } rfl ?_
  intro n hn
  have hne : n ≠ head := fun heq => hn (heq ▸ List.mem_of_getElem? hi)
  exact ⟨hn,rfl,update_of_ne hne _ _,rfl⟩

theorem only_dummy {i : Nat} (h : [0][i]? = some x) : i = 0 := by
  obtain ⟨hlt,_⟩ := List.getElem?_eq_some_iff.mp h
  simpa using hlt

theorem inv_init : Inv [0] 0 0 (init : State V) where
  distinct := by simp
  made := by simp [init]
  links := by
    intro i x hi
    cases only_dummy hi
    rfl
  head := rfl
  tail := rfl
  order := le_refl 0
  payload i x hi hx := absurd (only_dummy hx) (by omega)
  kept i x hi hx := absurd (only_dummy hx) (by omega)
  val i x hi hx := absurd (only_dummy hx) (by omega)
  increasing i j x y hi hij hx := absurd (only_dummy hx) (by omega)
  bound i x hi hx := absurd (only_dummy hx) (by omega)
  committed p := by
    refine ⟨by simp [init],?_⟩
    rintro ⟨i,hi,hp⟩
    exact absurd (only_dummy hp) (by omega)
  retired p := by
    refine ⟨by simp [init],?_⟩
    rintro ⟨i,hi,_,hp⟩
    exact absurd (only_dummy hp) (by omega)
  threads t := ⟨rfl,rfl⟩
  own t u n hn := by cases hn

end Montage.MSQueue
