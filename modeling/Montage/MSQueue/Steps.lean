import Montage.MSQueue.Invariant

namespace Montage.MSQueue
open Library Function Option
open List hiding head tail

variable {V : Type} {o o' : List Nat} {hd tl hd' tl' : Nat} {s s' : State V} {th : Thread V}

/-- The values of the nodes after the head. -/
def contents (o : List Nat) (hd : Nat) (s : State V) : List (Option V) :=
  (o.drop (hd + 1)).map s.val

def Transfers (c : List (Option V)) (c' : List (Option V)) : Event V → Prop
  | .enq v => c' = c ++ [some v]
  | .deq v => c = some v :: c'

theorem Core.last (h : Core o hd tl s) {i x : Nat} (hi : o[i]? = some x)
    (hlast : s.next x = none) : o.length = i + 1 := by
  have hout := List.getElem?_eq_none_iff.mp ((h.links i x hi).symm.trans hlast)
  obtain ⟨hlt,_⟩ := List.getElem?_eq_some_iff.mp hi
  omega

theorem Core.above (h : Core o hd tl s) {i x sn : Nat} (hi : o[i]? = some x)
    (hlast : s.next x = none) (hafter : 0 < i → s.sn x < sn) {j y : Nat} (hj : 0 < j)
    (hy : o[j]? = some y) : s.sn y < sn := by
  have hlen := h.last hi hlast
  obtain ⟨hlt,_⟩ := List.getElem?_eq_some_iff.mp hy
  rcases lt_or_eq_of_le (by omega : j ≤ i) with hlt | heq
  · exact lt_trans (h.increasing j i y x hj hlt hy hi) (hafter (by omega))
  · rw [heq,hi] at hy
    cases hy
    exact hafter (by omega)

/-- A node linked behind the last one is the new end of the list. -/
theorem Core.link (h : Core o hd tl s) {i x n : Nat} (hi : o[i]? = some x)
    (hlast : s.next x = none) (hfresh : Fresh o s th n) (hsn : s.sn n < s.globalSn)
    (hafter : 0 < i → s.sn x < s.sn n)
    (hcommitted : s'.committed = s.committed ∪ {n}) (hsame : s' = { s with
      next := update s.next x (some n)
      committed := s'.committed
      thread := s'.thread }) : Core (o ++ [n]) hd tl s' := by
  have hlen := h.last hi hlast
  have hbelow : ∀ (j : Nat) y, o[j]? = some y → j ≤ i := by
    intro j y hy
    obtain ⟨hlt,_⟩ := List.getElem?_eq_some_iff.mp hy
    omega
  have hold : ∀ (j : Nat) y, o[j]? = some y → (o ++ [n])[j]? = some y := fun j y hy =>
    concat_position.mpr (.inl hy)
  have hd_le := hbelow hd _ h.head
  have hkept : s.payload n ≠ none := by simp [hfresh.payload]
  have hval : s.val n ≠ none := hfresh.val ▸ hfresh.arg
  rw [hsame]
  constructor
  case distinct =>
    refine nodup_append.mpr ⟨h.distinct,by simp,?_⟩
    intro a ha b hb heq
    cases mem_singleton.mp hb
    exact hfresh.unlinked (heq ▸ ha)
  case made =>
    intro y hy
    rcases mem_append.mp hy with hy | hy
    · exact h.made y hy
    · cases mem_singleton.mp hy
      exact hfresh.made
  case links =>
    intro j y hy
    rcases concat_position.mp hy with hy | ⟨hj,hy⟩
    · by_cases heq : y = x
      · have hj : j = i := h.position (heq ▸ hy) hi
        have hn : (o ++ [n])[j + 1]? = some n := concat_position.mpr (.inr ⟨by omega,rfl⟩)
        have hlink : update s.next x (some n) y = some n := by simp [heq]
        exact hlink.trans hn.symm
      · have hj : j < i := by
          refine lt_of_le_of_ne (hbelow j y hy) ?_
          rintro rfl
          exact heq (some.inj (hy.symm.trans hi))
        rw [getElem?_append_left (by omega)]
        exact (update_of_ne heq _ _).trans (h.links j y hy)
    · have hne : y ≠ x := fun heq => hfresh.unlinked (hy ▸ heq ▸ mem_of_getElem? hi)
      rw [getElem?_eq_none (by simp [hj])]
      exact (update_of_ne hne _ _).trans (hy ▸ hfresh.next)
  case head => exact hold _ _ h.head
  case tail => exact hold _ _ h.tail
  case order => exact h.order
  case payload =>
    intro j y hj hy
    rcases concat_position.mp hy with hy | ⟨_,hy⟩
    · exact h.payload j y hj hy
    · exact hy ▸ hfresh.payload
  case kept =>
    intro j y hj hy
    rcases concat_position.mp hy with hy | ⟨_,hy⟩
    · exact h.kept j y hj hy
    · exact hy ▸ hkept
  case val =>
    intro j y hj hy
    rcases concat_position.mp hy with hy | ⟨_,hy⟩
    · exact h.val j y hj hy
    · exact hy ▸ hval
  case increasing =>
    intro j k y z hj hjk hy hz
    rcases concat_position.mp hy with hy | ⟨hj,_⟩
    · rcases concat_position.mp hz with hz | ⟨_,hz⟩
      · exact h.increasing j k y z hj hjk hy hz
      · exact hz ▸ h.above hi hlast hafter hj hy
    · obtain ⟨hlt,_⟩ := List.getElem?_eq_some_iff.mp hz
      simp at hlt
      omega
  case bound =>
    intro j y hj hy
    rcases concat_position.mp hy with hy | ⟨_,hy⟩
    · exact h.bound j y hj hy
    · exact hy ▸ hsn
  case committed =>
    intro p
    have hp : p ∈ s'.committed ↔ (∃ j : Nat, 0 < j ∧ o[j]? = some p) ∨ p = n := by
      rw [hcommitted,Finset.mem_union,h.committed,Finset.mem_singleton]
    refine hp.trans ⟨?_,?_⟩
    · rintro (⟨j,hj,hp⟩ | hp)
      · exact ⟨j,hj,hold j p hp⟩
      · exact ⟨o.length,by omega,concat_position.mpr (.inr ⟨rfl,hp⟩)⟩
    · rintro ⟨j,hj,hp⟩
      rcases concat_position.mp hp with hp | ⟨_,hp⟩
      · exact .inl ⟨j,hj,hp⟩
      · exact .inr hp
  case retired =>
    intro p
    refine (h.retired p).trans ⟨?_,?_⟩
    · rintro ⟨j,hj,hle,hp⟩
      exact ⟨j,hj,hle,hold j p hp⟩
    · rintro ⟨j,hj,hle,hp⟩
      rcases concat_position.mp hp with hp | ⟨hlen',_⟩
      · exact ⟨j,hj,hle,hp⟩
      · omega

/-- The head moves on, and the payload of its node is retired. -/
theorem Core.unlink (h : Core o hd tl s) {n : Nat} (hn : o[hd + 1]? = some n) (hlt : hd < tl)
    (hretired : s'.retired = s.retired ∪ {n}) (hsame : s' = { s with
      head := n
      retired := s'.retired
      thread := s'.thread }) : Core o (hd + 1) tl s' := by
  rw [hsame]
  refine { h with head := hn, order := hlt, payload := ?_, retired := ?_ }
  · intro j y hj hy
    exact h.payload j y (by omega) hy
  · intro p
    have hp : p ∈ s'.retired ↔ (∃ j : Nat, 0 < j ∧ j ≤ hd ∧ o[j]? = some p) ∨ p = n := by
      rw [hretired,Finset.mem_union,h.retired,Finset.mem_singleton]
    refine hp.trans ⟨?_,?_⟩
    · rintro (⟨j,hj,hle,hp⟩ | hp)
      · exact ⟨j,hj,by omega,hp⟩
      · exact ⟨hd + 1,by omega,le_rfl,hp ▸ hn⟩
    · rintro ⟨j,hj,hle,hp⟩
      by_cases heq : j = hd + 1
      · rw [heq,hn] at hp
        cases hp
        exact .inr rfl
      · exact .inl ⟨j,hj,by omega,hp⟩

/-- A successful exchange transfers a value; no other step changes the queue. -/
def Does (s : State V) (a : Act V) (s' : State V) (c c' : List (Option V)) : Prop :=
  if succeeds s a then
    ∃ e, (s.thread a.thread).done = none ∧ (s'.thread a.thread).done = some e ∧ Transfers c c' e
  else c' = c

def Keeps (o : List Nat) (hd : Nat) (s : State V) (a : Act V) (s' : State V) : Prop :=
  ∃ o' hd' tl', Inv o' hd' tl' s' ∧ Does s a s' (contents o hd s) (contents o' hd' s')

theorem Inv.quiet (h : Inv o hd tl s') (hval : s'.val = s.val) (hno : succeeds s a = false) :
    Keeps o hd s a s' := by
  refine ⟨o,hd,tl,h,?_⟩
  simp [Does,hno,contents,hval]

section
variable (h : Inv o hd tl s)
include h

theorem Inv.enq_set (hpc : (s.thread t).pc = .enqSet n tail sn) :
    Inv o hd tl { s.goto t (.enqCas n tail) with sn := update s.sn n sn } := by
  have ht := h.threads t
  rw [hpc] at ht
  obtain ⟨hfresh,hbound,i,hi,hafter⟩ := ht
  have hlinked : ∀ (j : Nat) x, o[j]? = some x → update s.sn n sn x = s.sn x := by
    intro j x hx
    have hne : x ≠ n := fun heq => hfresh.unlinked (heq ▸ mem_of_getElem? hx)
    exact update_of_ne hne _ _
  have hcore : Core o hd tl { s.goto t (.enqCas n tail) with sn := update s.sn n sn } :=
    { h.toCore with
      increasing := by
        intro j k x y hj hjk hx hy
        show update s.sn n sn x < update s.sn n sn y
        rw [hlinked j x hx,hlinked k y hy]
        exact h.increasing j k x y hj hjk hx hy
      bound := fun j x hj hx => lt_of_le_of_lt (hlinked j x hx).le (h.bound j x hj hx) }
  refine h.move hcore { Grows.refl o hd tl s with sn := hlinked } rfl ?_ ?_ ?_
  · have hn : update s.sn n sn n = sn := update_self _ _ _
    refine ⟨{ hfresh with },lt_of_le_of_lt hn.le hbound,i,hi,fun hpos => ?_⟩
    show update s.sn n sn tail < update s.sn n sn n
    rw [hlinked i tail hi,hn]
    exact hafter hpos
  · intro m hm
    exact .inl (by rw [hpc]; exact hm)
  · intro u m hu hm
    have hne : m ≠ n := by
      rintro rfl
      exact hu (h.own u t m hm (by simp [hpc,Pc.fresh]))
    exact ⟨((h.threads u).of_fresh hm).unlinked,rfl,rfl,update_of_ne hne _ _⟩

theorem Inv.enq_cas (hpc : (s.thread t).pc = .enqCas n tail) (hlast : s.next tail = none) :
    Inv (o ++ [n]) hd tl { s.commit t (.enqLink n tail) ((s.thread t).arg.map .enq) with
      next := update s.next tail (some n) } ∧
    ∃ v, (s.thread t).arg = some v ∧ (s.thread t).done = none ∧
      contents (o ++ [n]) hd s = contents o hd s ++ [some v] := by
  have ht := h.threads t
  rw [hpc] at ht
  obtain ⟨hfresh,hbound,i,hi,hafter⟩ := ht
  obtain ⟨v,hv⟩ := ne_none_iff_exists'.mp hfresh.arg
  have hlen := h.last hi hlast
  refine ⟨?_,v,hv,hfresh.done,?_⟩
  · have hold : ∀ (j : Nat) x, o[j]? = some x → (o ++ [n])[j]? = some x := fun j x hx =>
      concat_position.mpr (.inl hx)
    have hnext : update s.next tail (some n) tail = some n := update_self _ _ _
    refine h.move (h.link hi hlast hfresh hbound hafter ?_ ?_) { Grows.refl o hd tl s with
      nodes := hold
      next := ?_ } rfl ?_ ?_ ?_
    · simp [State.commit,hfresh.allocs]
    · simp [State.commit,hfresh.retires]
    · intro _ x y _ hx
      have hne : x ≠ tail := by
        rintro rfl
        simp [hlast] at hx
      exact (update_of_ne hne _ _).trans hx
    · exact ⟨⟨rfl,rfl⟩,⟨v,hv,by simp [hv]⟩,⟨i,hold i tail hi⟩,hnext⟩
    · intro m hm
      cases hm
    · intro u m hu hm
      have hm' := (h.threads u).of_fresh hm
      have hne : m ≠ n := by
        rintro rfl
        exact hu (h.own u t m hm (by simp [hpc,Pc.fresh]))
      have hne' : m ≠ tail := fun heq => hm'.unlinked (heq ▸ mem_of_getElem? hi)
      exact ⟨by simp [hm'.unlinked,hne],update_of_ne hne' _ _,rfl,rfl⟩
  · obtain ⟨hlt,_⟩ := List.getElem?_eq_some_iff.mp h.head
    simp [contents,drop_append_of_le_length (by omega : hd + 1 ≤ o.length),hfresh.val,hv]

theorem Inv.deq_cas (hpc : (s.thread t).pc = .deqCas head n p) (hhead : s.head = head) :
    Inv o (hd + 1) tl { s.commit t (.deqVal head p) ((s.val p).map .deq) with head := n } ∧
    ∃ v, s.val p = some v ∧ (s.thread t).done = none ∧
      contents o hd s = some v :: contents o (hd + 1) s := by
  have ht := h.threads t
  rw [hpc] at ht
  obtain ⟨hallocs,hretires,hdone,hnext,i,_,hi,hlt,hp⟩ := ht
  have hpos : i = hd := h.position hi (hhead ▸ h.head)
  cases hpos
  cases hp rfl
  have hn : o[hd + 1]? = some n := (h.links hd head hi).symm.trans hnext
  obtain ⟨v,hv⟩ := ne_none_iff_exists'.mp (h.val (hd + 1) n (by omega) hn)
  refine ⟨?_,v,hv,hdone,?_⟩
  · refine h.move (h.unlink hn hlt ?_ ?_) { Grows.refl o hd tl s with head := by omega } rfl ?_ ?_ ?_
    · simp [State.commit,hretires]
    · simp [State.commit,hallocs]
    · exact ⟨⟨rfl,rfl⟩,⟨hd,by omega,hi⟩,h.made n (mem_of_getElem? hn),v,hv,by simp [hv]⟩
    · intro m hm
      cases hm
    · exact fun u m _ hm => ⟨((h.threads u).of_fresh hm).unlinked,rfl,rfl,rfl⟩
  · obtain ⟨hlt,hget⟩ := List.getElem?_eq_some_iff.mp hn
    rw [contents,drop_eq_getElem_cons hlt,map_cons,hget,hv]
    rfl

/-- Steps that only go on to the next place. -/
theorem Inv.stays {pc : Pc V} (hpc : pc.Inv o hd tl s (s.thread t))
    (hown : ∀ n, pc.fresh = some n → (s.thread t).pc.fresh = some n)
    (hno : succeeds s a = false) : Keeps o hd s a (s.goto t pc) :=
  (h.goto hpc hown).quiet rfl hno

theorem Inv.swings {pc : Pc V} {i : Nat} (hi : o[i]? = some tail) (hnext : s.next tail = some x)
    (hpc : ∀ tl', pc.Inv o hd tl' (s.swing tail x) (s.thread t))
    (hown : ∀ n, pc.fresh = some n → (s.thread t).pc.fresh = some n)
    (hno : succeeds s a = false) : Keeps o hd s a ((s.swing tail x).goto t pc) := by
  obtain ⟨tl',hswing⟩ := h.swing hi hnext
  exact (hswing.goto (hpc tl') hown).quiet rfl hno

omit h in
/-- Nothing follows the node that was the head: it still is. -/
theorem Core.empty (h : Core o hd tl s) {i j x y : Nat} (hi : o[i]? = some x) (hle : i ≤ hd)
    (hnext : s.next x = none) (hij : i ≤ j) (hj : o[j]? = some y) : x = y ∧ s.head = x := by
  have hlen := h.last hi hnext
  obtain ⟨hlt,_⟩ := List.getElem?_eq_some_iff.mp h.head
  obtain ⟨hlt',_⟩ := List.getElem?_eq_some_iff.mp hj
  have hhead := h.head
  rw [show hd = i by omega,hi] at hhead
  rw [show j = i by omega,hi] at hj
  exact ⟨some.inj hj,(some.inj hhead).symm⟩

theorem Inv.thread_at (hpc : (s.thread t).pc = pc) : pc.Inv o hd tl s (s.thread t) :=
  hpc ▸ h.threads t

section Ticks
variable (hs : tick s t fails = some s')
include hs

/-- The number drawn is above those of all linked nodes. -/
theorem Inv.tick_enq_tail (hpc : (s.thread t).pc = .enqTail n tail) :
    Keeps o hd s (.tick t fails) s' := by
  obtain ⟨hfresh,i,hi⟩ := h.thread_at hpc
  simp only [tick,hpc,some.injEq] at hs
  subst hs
  have hbehind : Behind o { s with globalSn := s.globalSn + 1 } tail s.globalSn :=
    ⟨Nat.lt_succ_self _,i,hi,fun hpos => h.bound i tail hpos hi⟩
  have hgo : Inv o hd tl ({ s with globalSn := s.globalSn + 1 }.goto t
      (.enqSn n tail s.globalSn)) :=
    h.draw.goto ⟨{ hfresh with },hbehind⟩ (by simp [hpc,Pc.fresh])
  exact hgo.quiet rfl (by simp [succeeds,hpc])

theorem Inv.tick_enq_next {next : Option Nat} (hpc : (s.thread t).pc = .enqNext n tail sn next) :
    Keeps o hd s (.tick t fails) s' := by
  obtain ⟨hfresh,hbehind,hnext⟩ := h.thread_at hpc
  simp only [tick,hpc] at hs
  split at hs
  next =>
    cases next with
    | none =>
      cases hs
      exact h.stays ⟨hfresh,hbehind⟩ (by simp [hpc,Pc.fresh]) (by simp [succeeds,hpc])
    | some x =>
      cases hs
      obtain ⟨_,i,hi,_⟩ := hbehind
      exact h.stays ⟨hfresh,⟨i,hi⟩,hnext x rfl⟩ (by simp [hpc,Pc.fresh]) (by simp [succeeds,hpc])
  next =>
    cases hs
    exact h.stays hfresh (by simp [hpc,Pc.fresh]) (by simp [succeeds,hpc])

/-- The exchange that commits an `enqueue`, or aborts the attempt. -/
theorem Inv.tick_enq_cas (hpc : (s.thread t).pc = .enqCas n tail) :
    Keeps o hd s (.tick t fails) s' := by
  simp only [tick,hpc] at hs
  split at hs
  next hok =>
    cases hs
    have hlast : s.next tail = none := by simp at hok; exact hok.2
    obtain ⟨hinv,v,harg,hdone,hc⟩ := h.enq_cas hpc hlast
    refine ⟨o ++ [n],hd,tl,hinv,?_⟩
    rw [Does,if_pos (by simpa [succeeds,hpc] using hok)]
    exact ⟨.enq v,hdone,by simp [Act.thread,State.commit,harg],hc⟩
  next hno =>
    cases hs
    have hput : Inv o hd tl (s.abort t (.enqueue n)) := by
      refine h.put ?_ (by simp [hpc,Pc.fresh])
      exact { (h.thread_at hpc).1 with retires := rfl }
    exact hput.quiet rfl (by simpa [succeeds,hpc] using hno)

/-- The read of a null `next`: the node read as head was the last, so it still is the head. -/
theorem Inv.tick_deq_tail (hempty : s.next s.head = none → (s.thread t).sawEmpty = true)
    (hpc : (s.thread t).pc = .deqTail head tail) : Keeps o hd s (.tick t fails) s' := by
  obtain ⟨hcalm,hdone,i,hle,hi,j,hij,hj,htail⟩ := h.thread_at hpc
  simp only [tick,hpc,some.injEq] at hs
  subst hs
  refine h.stays ⟨hcalm,hdone,⟨i,hle,hi,j,hij,hj,htail⟩,fun x hx => hx,fun hx => ?_⟩
    (by simp [Pc.fresh]) (by simp [succeeds,hpc])
  obtain ⟨hsame,hhead⟩ := h.empty hi hle hx hij htail
  exact ⟨hsame,hempty (hhead ▸ hx)⟩

theorem Inv.tick_deq_next {next : Option Nat} (hpc : (s.thread t).pc = .deqNext head tail next) :
    Keeps o hd s (.tick t fails) s' := by
  obtain ⟨hcalm,hdone,⟨i,hle,hi,j,hij,hj,htail⟩,hnext,hnull⟩ := h.thread_at hpc
  simp only [tick,hpc] at hs
  split at hs
  next =>
    split at hs
    next heq =>
      cases next with
      | none =>
        cases hs
        exact h.stays ⟨hcalm,hdone,(hnull rfl).2⟩ (by simp [Pc.fresh]) (by simp [succeeds,hpc])
      | some x =>
        cases hs
        exact h.stays ⟨hcalm,hdone,⟨j,htail⟩,heq ▸ hnext x rfl⟩ (by simp [Pc.fresh])
          (by simp [succeeds,hpc])
    next hne =>
      cases next with
      | none => exact absurd (hnull rfl).1 hne
      | some x =>
        cases hs
        have hlt : i ≠ j := by
          rintro rfl
          exact hne (some.inj (hi.symm.trans htail))
        exact h.stays ⟨hcalm,hdone,hnext x rfl,i,hle,hi,by omega⟩ (by simp [Pc.fresh])
          (by simp [succeeds,hpc])
  next =>
    cases hs
    exact h.stays ⟨hcalm,hdone⟩ (by simp [Pc.fresh]) (by simp [succeeds,hpc])

theorem Inv.tick_deq_take (hpc : (s.thread t).pc = .deqTake head n) :
    Keeps o hd s (.tick t fails) s' := by
  obtain ⟨hcalm,hdone,hnext,i,hle,hi,hlt⟩ := h.thread_at hpc
  have hn : o[i + 1]? = some n := (h.links i head hi).symm.trans hnext
  obtain ⟨p,hp⟩ := ne_none_iff_exists'.mp (h.kept (i + 1) n (by omega) hn)
  simp only [tick,hpc,hp,some.injEq] at hs
  subst hs
  have hput : Inv o hd tl (s.put t { s.thread t with
      pc := .deqCas head n p
      pendingRetires := (s.thread t).pendingRetires ++ [p] }) := by
    refine h.put ⟨hcalm.1,by simp [hcalm.2],hdone,hnext,i,hle,hi,hlt,?_⟩ (by simp [Pc.fresh])
    intro heq
    have hown := h.payload (i + 1) n (by omega) hn
    exact some.inj (hp.symm.trans hown)
  exact hput.quiet rfl (by simp [succeeds,hpc])

/-- The exchange that commits a `dequeue`, or aborts the attempt. -/
theorem Inv.tick_deq_cas (hpc : (s.thread t).pc = .deqCas head n p) :
    Keeps o hd s (.tick t fails) s' := by
  obtain ⟨hallocs,_,hdone,_⟩ := h.thread_at hpc
  simp only [tick,hpc] at hs
  split at hs
  next hok =>
    cases hs
    have hhead : s.head = head := by simp at hok; exact hok.2
    obtain ⟨hinv,v,hval,hdone,hc⟩ := h.deq_cas hpc hhead
    refine ⟨o,hd + 1,tl,hinv,?_⟩
    rw [Does,if_pos (by simpa [succeeds,hpc] using hok)]
    exact ⟨.deq v,hdone,by simp [Act.thread,State.commit,hval],hc⟩
  next hno =>
    cases hs
    have hput : Inv o hd tl (s.abort t .dequeue) := h.put ⟨⟨hallocs,rfl⟩,hdone⟩ (by simp [Pc.fresh])
    exact hput.quiet rfl (by simpa [succeeds,hpc] using hno)

/-- The node that became the head takes the payload over. -/
theorem Inv.tick_deq_write (hpc : (s.thread t).pc = .deqWrite head p v) :
    Keeps o hd s (.tick t fails) s' := by
  obtain ⟨hcalm,⟨i,hlt,hi⟩,hdone⟩ := h.thread_at hpc
  simp only [tick,hpc,some.injEq] at hs
  subst hs
  have hgo : Inv o hd tl ({ s with payload := update s.payload head (some p) }.goto t
      (.dequeued (some v))) :=
    (h.take_over hlt hi).goto ⟨hcalm,hdone⟩ (by simp [Pc.fresh])
  exact hgo.quiet rfl (by simp [succeeds,hpc])

theorem tick_keeps (hempty : s.next s.head = none → (s.thread t).sawEmpty = true) :
    Keeps o hd s (.tick t fails) s' := by
  have ht := h.threads t
  have hs0 := hs
  cases hpc : (s.thread t).pc <;> rw [hpc] at ht <;>
    simp only [tick,hpc,some.injEq,reduceCtorEq] at hs
  case enqTail => exact h.tick_enq_tail hs0 hpc
  case enqNext => exact h.tick_enq_next hs0 hpc
  case enqCas => exact h.tick_enq_cas hs0 hpc
  case deqTail => exact h.tick_deq_tail hs0 hempty hpc
  case deqNext => exact h.tick_deq_next hs0 hpc
  case deqTake => exact h.tick_deq_take hs0 hpc
  case deqCas => exact h.tick_deq_cas hs0 hpc
  case deqWrite => exact h.tick_deq_write hs0 hpc
  case enqueue n =>
    subst hs
    exact h.stays ⟨ht,tl,h.tail⟩ (by simp [hpc,Pc.fresh]) (by simp [succeeds,hpc])
  case enqSn n tail sn =>
    subst hs
    exact h.stays ⟨ht.1,ht.2,fun x hx => hx⟩ (by simp [hpc,Pc.fresh]) (by simp [succeeds,hpc])
  case enqSet n tail sn =>
    rw [ht.1.payload] at hs
    cases hs
    exact (h.enq_set hpc).quiet rfl (by simp [succeeds,hpc])
  case enqSwing n tail x =>
    subst hs
    obtain ⟨hfresh,⟨i,hi⟩,hnext⟩ := ht
    exact h.swings hi hnext (fun _ => { hfresh with }) (by simp [hpc,Pc.fresh])
      (by simp [succeeds,hpc])
  case enqLink n tail =>
    subst hs
    obtain ⟨hcalm,hdone,⟨i,hi⟩,hnext⟩ := ht
    exact h.swings hi hnext (fun _ => ⟨hcalm,hdone⟩) (by simp [Pc.fresh]) (by simp [succeeds,hpc])
  case enqueued =>
    subst hs
    exact h.stays ht.1 (by simp [Pc.fresh]) (by simp [succeeds,hpc])
  case dequeue =>
    subst hs
    exact h.stays ⟨ht.1,ht.2,hd,le_rfl,h.head⟩ (by simp [Pc.fresh])
      (by simp [succeeds,hpc])
  case deqHead head =>
    subst hs
    obtain ⟨hcalm,hdone,i,hle,hi⟩ := ht
    exact h.stays ⟨hcalm,hdone,i,hle,hi,tl,le_trans hle h.order,le_rfl,h.tail⟩
      (by simp [Pc.fresh]) (by simp [succeeds,hpc])
  case deqSwing tail x =>
    subst hs
    obtain ⟨hcalm,hdone,⟨i,hi⟩,hnext⟩ := ht
    exact h.swings hi hnext (fun _ => ⟨hcalm,hdone⟩) (by simp [Pc.fresh]) (by simp [succeeds,hpc])
  case deqVal head p =>
    obtain ⟨hcalm,hpos,_,v,hv,hdone⟩ := ht
    rw [hv] at hs
    cases hs
    exact h.stays ⟨hcalm,hpos,hdone⟩ (by simp [Pc.fresh]) (by simp [succeeds,hpc])
  case dequeued res =>
    subst hs
    have hcalm : Calm (s.thread t) := by cases res <;> exact ht.1
    exact h.stays hcalm (by simp [Pc.fresh]) (by simp [succeeds,hpc])

end Ticks

omit h in
theorem newNode_old {β : Type} (f : Nat → β) (b : β) (hx : x < s.made) :
    update f s.made b x = f x :=
  update_of_ne (ne_of_lt hx) _ _

omit h in
theorem Core.node_made (h : Core o hd tl s) {i : Nat} (hi : o[i]? = some x) : x < s.made :=
  h.made x (mem_of_getElem? hi)

omit h in
theorem Core.new_node (h : Core o hd tl s) (v : V) : Core o hd tl (s.newNode v) := by
  refine { h with
    made := fun x hx => Nat.lt_succ_of_lt (h.made x hx)
    links := fun i x hx => (newNode_old _ _ (h.node_made hx)).trans (h.links i x hx)
    payload := fun i x hi hx => (newNode_old _ _ (h.node_made hx)).trans (h.payload i x hi hx)
    kept := fun i x hi hx => ne_of_eq_of_ne (newNode_old _ _ (h.node_made hx)) (h.kept i x hi hx)
    val := fun i x hi hx => ne_of_eq_of_ne (newNode_old _ _ (h.node_made hx)) (h.val i x hi hx)
    bound := fun i x hi hx =>
      lt_of_le_of_lt (newNode_old _ _ (h.node_made hx)).le (h.bound i x hi hx)
    increasing := ?_ }
  intro i j x y hi hij hx hy
  show update s.sn s.made 0 x < update s.sn s.made 0 y
  rw [newNode_old _ _ (h.node_made hx),newNode_old _ _ (h.node_made hy)]
  exact h.increasing i j x y hi hij hx hy

theorem Inv.enqueue (hs : act s (.enqueue t v) = some s') : Keeps o hd s (.enqueue t v) s' := by
  have ht := h.threads t
  simp only [act] at hs
  split at hs
  next hpc =>
    rw [hpc] at ht
    cases hs
    have hgrows : Grows o hd tl s o hd tl (s.newNode v) := { Grows.refl o hd tl s with
      made := Nat.le_succ _
      next := fun i x y hx hy => (newNode_old _ _ (h.node_made hx)).trans hy
      sn := fun i x hx => newNode_old _ _ (h.node_made hx)
      val := fun x hx => newNode_old _ _ hx }
    have hnew : ∀ {β : Type} (f : Nat → β) b, update f s.made b s.made = b :=
      fun _ _ => update_self _ _ _
    refine ⟨o,hd,tl,h.move { h.new_node v with } { hgrows with } rfl ?_ ?_ ?_,?_⟩
    · exact ⟨fun hmem => lt_irrefl _ (h.made _ hmem),Nat.lt_succ_self _,hnew _ _,hnew _ _,
        hnew _ _,by simp,by simp [ht.1],ht.2,rfl⟩
    · intro n hn
      cases hn
      exact .inr le_rfl
    · intro u n _ hn
      have hfresh := (h.threads u).of_fresh hn
      exact ⟨hfresh.unlinked,newNode_old _ _ hfresh.made,newNode_old _ _ hfresh.made,
        newNode_old _ _ hfresh.made⟩
    · refine map_congr_left fun x hx => ?_
      exact newNode_old _ _ (h.made x (mem_of_mem_drop hx))
  next => cases hs

theorem Inv.dequeue (hs : act s (.dequeue t) = some s') : Keeps o hd s (.dequeue t) s' := by
  have ht := h.threads t
  simp only [act] at hs
  split at hs
  next hpc =>
    rw [hpc] at ht
    cases hs
    have hput : Inv o hd tl (s.put t { s.thread t with
        pc := .dequeue, arg := none, done := none, sawEmpty := false }) :=
      h.put ⟨ht,rfl⟩ (by simp [Pc.fresh])
    exact hput.quiet rfl rfl
  next => cases hs

theorem step_keeps (hs : step s a = some s') : Keeps o hd s.note a s' := by
  cases a with
  | enqueue => exact h.note.enqueue hs
  | dequeue => exact h.note.dequeue hs
  | tick =>
    refine tick_keeps h.note hs fun hnone => ?_
    have hnone : s.next s.head = none := hnone
    simp [State.note,hnone]

end

end Montage.MSQueue
