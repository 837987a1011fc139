import Montage.FriedmanQueue.Model

namespace Montage.FriedmanQueue
open Library Function

def Pc.result {V : Type} : Pc V → Option (Option V)
  | .deqAdvance _ _ v => some (some v)
  | .dequeued res => some res
  | _ => none

variable {V : Type} {zero : V} {s s' : State V} {a : Act V} {t : Nat}

def announced (s : State V) (t : Nat) : Option (Option V) :=
  match (s.pc t).result with
  | some r => some r
  | none => s.returned t

/-- Every cell holds the result announced, which for an empty queue is the array of zeros. -/
def Announced (zero : V) (s : State V) : Prop :=
  ∀ t r, announced s t = some r → s.returnedVal t = r.getD zero

/-- The node that a helper has read, its value and the thread that has won it. -/
def Pc.helps : Pc V → Option (Nat × V × Nat)
  | .helpCopy _ x v owner => some (x,v,owner)
  | _ => none

/-- A helper writes to a cell: its owner has begun no `dequeue` since it won the node of the helper,
or if it has announced a result, it is the same. -/
def Timely (zero : V) (s : State V) : Act V → Prop
  | .tick t => ∀ w ∈ (s.pc t).helps,
      s.won w.2.2 = some w.1 ∨ ∀ r ∈ announced s w.2.2, w.2.1 = r.getD zero
  | _ => True

instance [DecidableEq V] (zero : V) (s : State V) : (a : Act V) → Decidable (Timely zero s a)
  | .enqueue _ _ | .dequeue _ => .isTrue trivial
  | .tick t => inferInstanceAs (Decidable (∀ w ∈ (s.pc t).helps,
      s.won w.2.2 = some w.1 ∨ ∀ r ∈ announced s w.2.2, w.2.1 = r.getD zero))

def Act.thread : Act V → Nat
  | .enqueue t _ | .dequeue t | .tick t => t

section
variable (s : State V)

def Fresh (t : Nat) : Prop := s.returned t = none ∧ s.won t = none

def Holds (x : Nat) (v : V) : Prop := x < s.made ∧ s.value x = v

/-- A result is the value of the node that was won. -/
def Wins (t : Nat) : Option V → Prop
  | none => s.won t = none
  | some v => ∃ x, s.won t = some x ∧ Holds s x v

/-- What a thread knows at each place: a node that it has read was made, and the value read from it
is its value. -/
def Known (t : Nat) : Pc V → Prop
  | .enqueue n | .enqTail n _ | .enqNext n _ _ | .enqCas n _ | .enqSwing n _ _ | .enqLink n _ =>
    n < s.made
  | .dequeue | .deqLoop | .deqHead _ | .deqTail _ _ | .deqEmpty | .deqSwing _ _
  | .helpAdvance _ _ => Fresh s t
  | .deqNext _ _ next => Fresh s t ∧ ∀ x, next = some x → x < s.made
  | .deqRead _ x => Fresh s t ∧ x < s.made
  | .deqCas _ x v | .helpTid _ x v | .helpCheck _ x v _ | .helpCopy _ x v _ =>
    Fresh s t ∧ Holds s x v
  | .deqCopy _ x v => s.returned t = none ∧ s.won t = some x ∧ Holds s x v
  | .deqAdvance _ x v => s.won t = some x ∧ Holds s x v
  | .dequeued res => Wins s t res
  | .idle | .enqueued | .crashed => True

structure Inv : Prop where
  next : ∀ n x, s.next n = some x → x < s.made
  known : ∀ t, Known s t (s.pc t)
  returned : ∀ t r, s.returned t = some r → Wins s t r

end

inductive Effect (zero : V) (s s' : State V) (t : Nat) : Prop
  | quiet (cells : s'.returnedVal = s.returnedVal)
      (result : announced s' t = announced s t ∨ announced s' t = none)
  | clears (v : V) (cells : s'.returnedVal = update s.returnedVal t v)
      (result : announced s' t = none)
  | settles (r : Option V) (cells : s'.returnedVal = update s.returnedVal t (r.getD zero))
      (result : announced s' t = some r)
  | helps (first next : Nat) (v : V) (owner : Nat) (pc : s.pc t = .helpCopy first next v owner)
      (cells : s'.returnedVal = update s.returnedVal owner v)
      (result : announced s' t = none)

def Others (s s' : State V) (t : Nat) : Prop :=
  ∀ u, u ≠ t → s'.pc u = s.pc u ∧ s'.returned u = s.returned u ∧ s'.won u = s.won u

theorem Others.announced (h : Others s s' t) {u : Nat} (hu : u ≠ t) :
    announced s' u = announced s u := by
  rw [FriedmanQueue.announced,FriedmanQueue.announced,(h u hu).1,(h u hu).2.1]

/-- Nodes are made, and a node keeps its value. -/
def Grows (s s' : State V) : Prop := s.made ≤ s'.made ∧ ∀ x, x < s.made → s'.value x = s.value x

structure Steps (zero : V) (s s' : State V) (t : Nat) : Prop where
  others : Others s s' t
  grows : Grows s s'
  next : ∀ n x, s'.next n = some x → x < s'.made
  known : Known s' t (s'.pc t)
  returned : ∀ r, s'.returned t = some r → Wins s' t r
  effect : Effect zero s s' t

theorem Grows.holds (h : Grows s s') {x : Nat} {v : V} (hx : Holds s x v) : Holds s' x v :=
  ⟨Nat.lt_of_lt_of_le hx.1 h.1,(h.2 x hx.1).trans hx.2⟩

theorem Wins.grows {u : Nat} {r : Option V} (h : Wins s u r) (hgrows : Grows s s')
    (hwon : s'.won u = s.won u) : Wins s' u r := by
  cases r with
  | none => exact hwon.trans h
  | some v =>
    obtain ⟨x,hx,hholds⟩ := h
    exact ⟨x,hwon.trans hx,hgrows.holds hholds⟩

theorem Known.grows {u : Nat} {pc : Pc V} (h : Known s u pc) (hgrows : Grows s s')
    (hreturned : s'.returned u = s.returned u) (hwon : s'.won u = s.won u) : Known s' u pc := by
  have hlt : ∀ {x}, x < s.made → x < s'.made := fun hx => Nat.lt_of_lt_of_le hx hgrows.1
  have hfresh : Fresh s u → Fresh s' u := fun hf => ⟨hreturned.trans hf.1,hwon.trans hf.2⟩
  cases pc with
  | enqueue | enqTail | enqNext | enqCas | enqSwing | enqLink => exact hlt h
  | dequeue | deqLoop | deqHead | deqTail | deqEmpty | deqSwing | helpAdvance => exact hfresh h
  | deqNext => exact ⟨hfresh h.1,fun x hx => hlt (h.2 x hx)⟩
  | deqRead => exact ⟨hfresh h.1,hlt h.2⟩
  | deqCas | helpTid | helpCheck | helpCopy => exact ⟨hfresh h.1,hgrows.holds h.2⟩
  | deqCopy => exact ⟨hreturned.trans h.1,hwon.trans h.2.1,hgrows.holds h.2.2⟩
  | deqAdvance => exact ⟨hwon.trans h.1,hgrows.holds h.2⟩
  | dequeued => exact Wins.grows h hgrows hwon
  | idle | enqueued | crashed => trivial

theorem Steps.inv (h : Steps zero s s' t) (hi : Inv s) : Inv s' := by
  refine ⟨h.next,?_,?_⟩
  · intro u
    by_cases hu : u = t
    · subst hu
      exact h.known
    · obtain ⟨hpc,hreturned,hwon⟩ := h.others u hu
      rw [hpc]
      exact (hi.known u).grows h.grows hreturned hwon
  · intro u r hr
    by_cases hu : u = t
    · subst hu
      exact h.returned r hr
    · obtain ⟨-,hreturned,hwon⟩ := h.others u hu
      exact (hi.returned u r (hreturned ▸ hr)).grows h.grows hwon

/-- A step that goes on to the next place and changes the list or a cell. -/
theorem cell_steps {pc : Pc V} {head tail : Nat} {next : Nat → Option Nat} {cells : Nat → V}
    (hi : Inv s) (hs : s' = { s with
      pc := update s.pc t pc, head := head, tail := tail, next := next, returnedVal := cells })
    (hnext : ∀ n x, next n = some x → x < s.made) (hknown : Known s t pc)
    (heffect : Effect zero s s' t) : Steps zero s s' t := by
  have hgrows : Grows s s' := by
    subst hs
    exact ⟨Nat.le_refl _,fun _ _ => rfl⟩
  have hself : s'.pc t = pc := by rw [hs]; exact update_self ..
  constructor
  case others =>
    intro u hu
    subst hs
    exact ⟨update_of_ne hu _ _,rfl,rfl⟩
  case grows => exact hgrows
  case next =>
    subst hs
    exact hnext
  case known =>
    rw [hself]
    exact hknown.grows hgrows (by rw [hs]) (by rw [hs])
  case returned =>
    intro r hr
    exact (hi.returned t r (by rwa [hs] at hr)).grows hgrows (by rw [hs])
  case effect => exact heffect

theorem goto_steps {pc : Pc V} {head tail : Nat} {next : Nat → Option Nat} (hi : Inv s)
    (hs : s' = { s with pc := update s.pc t pc, head := head, tail := tail, next := next })
    (hresult : pc.result = (s.pc t).result) (hnext : ∀ n x, next n = some x → x < s.made)
    (hknown : Known s t pc) : Steps zero s s' t := by
  refine cell_steps hi hs hnext hknown (.quiet (by rw [hs]) (.inl ?_))
  rw [announced,announced,hs]
  simp only [update_self,hresult]

theorem enqueueTick_steps (hi : Inv s) (h : enqueueTick s t (s.pc t) = some s') :
    Steps zero s s' t := by
  have hknown := hi.known t
  have hgo : ∀ {pc : Pc V} {head tail : Nat},
      s' = { s with pc := update s.pc t pc, head := head, tail := tail } →
      pc.result = (s.pc t).result → Known s t pc → Steps zero s s' t :=
    fun hs hresult hknown => goto_steps hi hs hresult hi.next hknown
  cases hpc : s.pc t <;> rw [hpc] at h hgo hknown <;> simp only [enqueueTick] at h
  case enqNext node last next =>
    split at h
    next =>
      cases next with
      | none | some => cases h; exact hgo rfl rfl hknown
    next => cases h; exact hgo rfl rfl hknown
  case enqCas node last =>
    split at h
    next =>
      cases h
      refine goto_steps hi rfl (by rw [hpc]; rfl) ?_ hknown
      intro n x hx
      rw [update_apply] at hx
      split at hx
      next =>
        cases hx
        exact hknown
      next => exact hi.next n x hx
    next => cases h; exact hgo rfl rfl hknown
  case enqLink => cases h; exact hgo rfl rfl trivial
  case enqueued => cases h; exact hgo rfl rfl trivial
  all_goals cases h
  all_goals exact hgo rfl rfl hknown

theorem dequeueTick_steps (hi : Inv s) (h : dequeueTick zero s t (s.pc t) = some s') :
    Steps zero s s' t := by
  have hknown := hi.known t
  have hgo : ∀ {pc : Pc V} {head tail : Nat},
      s' = { s with pc := update s.pc t pc, head := head, tail := tail } →
      pc.result = (s.pc t).result → Known s t pc → Steps zero s s' t :=
    fun hs hresult hknown => goto_steps hi hs hresult hi.next hknown
  cases hpc : s.pc t <;> rw [hpc] at h hgo hknown <;> simp only [dequeueTick] at h
  case dequeue =>
    cases h
    refine cell_steps hi rfl hi.next hknown (.clears zero rfl ?_)
    simpa [announced,State.goto,State.write,Pc.result] using hknown.1
  case deqEmpty =>
    cases h
    refine cell_steps hi rfl hi.next hknown.2 (.settles none rfl ?_)
    simp [announced,State.goto,Pc.result]
  case deqCopy first next v =>
    cases h
    refine cell_steps hi rfl hi.next hknown.2 (.settles (some v) rfl ?_)
    simp [announced,State.goto,Pc.result]
  case deqAdvance first next v =>
    cases h
    exact hgo rfl rfl ⟨next,hknown⟩
  case helpCopy first next v owner =>
    cases h
    refine cell_steps hi rfl hi.next hknown.1 (.helps first next v owner hpc rfl ?_)
    simpa [announced,State.goto,State.write,Pc.result] using hknown.1.1
  case dequeued res =>
    cases h
    refine ⟨fun u hu => ⟨update_of_ne hu _ _,update_of_ne hu _ _,rfl⟩,
      ⟨Nat.le_refl _,fun _ _ => rfl⟩,hi.next,?_,?_,.quiet rfl (.inl ?_)⟩
    · simp [State.goto,Known]
    · intro r hr
      simp only [State.goto,State.setReturned,update_self,Option.some.injEq] at hr
      exact hr ▸ hknown
    · simp [announced,State.goto,State.setReturned,Pc.result,hpc]
  case deqCas first next v =>
    split at h
    next =>
      cases h
      refine ⟨fun u hu => ⟨update_of_ne hu _ _,rfl,update_of_ne hu _ _⟩,
        ⟨Nat.le_refl _,fun _ _ => rfl⟩,hi.next,?_,?_,.quiet rfl (.inl ?_)⟩
      · simp only [State.goto,State.setWon,update_self]
        exact ⟨hknown.1.1,update_self ..,hknown.2⟩
      · intro r hr
        cases hknown.1.1.symm.trans hr
      · simp [announced,State.goto,State.setWon,Pc.result,hpc]
    next => cases h; exact hgo rfl rfl hknown
  case deqTail first last =>
    cases h
    exact hgo rfl rfl ⟨hknown,hi.next first⟩
  case deqRead first next =>
    cases h
    exact hgo rfl rfl ⟨hknown.1,hknown.2,rfl⟩
  case deqNext first last next =>
    split at h
    next =>
      split at h
      next =>
        cases next with
        | none | some => cases h; exact hgo rfl rfl hknown.1
      next =>
        cases next with
        | none => cases h; exact hgo rfl rfl trivial
        | some x => cases h; exact hgo rfl rfl ⟨hknown.1,hknown.2 x rfl⟩
    next => cases h; exact hgo rfl rfl hknown.1
  case helpTid first next v =>
    split at h
    next => cases h; exact hgo rfl rfl trivial
    next => cases h; exact hgo rfl rfl hknown
  case helpCheck first next v owner =>
    split at h
    next => cases h; exact hgo rfl rfl hknown
    next => cases h; exact hgo rfl rfl hknown.1
  all_goals cases h
  all_goals exact hgo rfl rfl hknown

theorem step_steps (hi : Inv s) (h : step zero s a = some s') : Steps zero s s' a.thread := by
  cases a with
  | enqueue t v =>
    simp only [step] at h
    split at h
    next hpc =>
      cases h
      have hgrows : Grows s ((s.newNode v).goto t (.enqueue s.made)) :=
        ⟨Nat.le_succ _,fun x hx => update_of_ne (Nat.ne_of_lt hx) _ _⟩
      constructor
      case others =>
        intro u hu
        exact ⟨update_of_ne hu _ _,rfl,rfl⟩
      case grows => exact hgrows
      case next =>
        intro n x hx
        simp only [State.goto,State.newNode,update_apply] at hx ⊢
        split at hx
        next => cases hx
        next => exact Nat.lt_succ_of_lt (hi.next n x hx)
      case known => simp [Act.thread,State.goto,State.newNode,Known]
      case returned => exact fun r hr => (hi.returned t r hr).grows hgrows rfl
      case effect =>
        refine .quiet rfl (.inl ?_)
        simp [Act.thread,announced,State.goto,State.newNode,Pc.result,hpc]
    next => cases h
  | dequeue t =>
    simp only [step] at h
    split at h
    next =>
      cases h
      refine ⟨fun u hu => ⟨update_of_ne hu _ _,update_of_ne hu _ _,update_of_ne hu _ _⟩,
        ⟨Nat.le_refl _,fun _ _ => rfl⟩,hi.next,?_,?_,.quiet rfl (.inr ?_)⟩
      · simp [Act.thread,State.goto,State.setReturned,State.setWon,Known,Fresh]
      · simp [Act.thread,State.goto,State.setReturned,State.setWon]
      · simp [Act.thread,announced,State.goto,State.setReturned,State.setWon,Pc.result]
    next => cases h
  | tick =>
    rcases Option.or_eq_some_iff.mp h with h | ⟨-,h⟩
    · exact enqueueTick_steps hi h
    · exact dequeueTick_steps hi h

theorem Inv.announced (hi : Inv s) {r : Option V} (hr : announced s t = some r) : Wins s t r := by
  have hknown := hi.known t
  cases hpc : s.pc t <;> rw [hpc] at hknown <;>
    simp only [FriedmanQueue.announced,hpc,Pc.result] at hr
  case deqAdvance =>
    cases hr
    exact ⟨_,hknown⟩
  case dequeued =>
    cases hr
    exact hknown
  all_goals exact hi.returned t r hr

/-- A helper whose owner has begun no other `dequeue` writes what the owner announces: both have read
it from the same node. -/
theorem Inv.helper_right (hi : Inv s) {first x owner : Nat} {v : V} {r : Option V}
    (hpc : s.pc t = .helpCopy first x v owner) (hwon : s.won owner = some x)
    (hr : FriedmanQueue.announced s owner = some r) : v = r.getD zero := by
  have hknown := hi.known t
  rw [hpc] at hknown
  have hwins := hi.announced hr
  cases r with
  | none => cases hwon.symm.trans hwins
  | some v' =>
    obtain ⟨x',hwon',hholds⟩ := hwins
    cases hwon.symm.trans hwon'
    exact hknown.2.2.symm.trans hholds.2

theorem Steps.keeps (h : Steps zero s s' t) (hi : Inv s) (hright : Announced zero s)
    (htimely : Timely zero s (.tick t)) : Announced zero s' := by
  intro u r hr
  cases h.effect with
  | quiet cells result =>
    rw [cells]
    by_cases hu : u = t
    · subst hu
      rcases result with result | result
      · exact hright u r (result ▸ hr)
      · rw [result] at hr
        cases hr
    · exact hright u r (h.others.announced hu ▸ hr)
  | clears v cells result =>
    rw [cells]
    by_cases hu : u = t
    · subst hu
      rw [result] at hr
      cases hr
    · rw [update_of_ne hu]
      exact hright u r (h.others.announced hu ▸ hr)
  | settles _ cells result =>
    rw [cells]
    by_cases hu : u = t
    · subst hu
      rw [result] at hr
      cases hr
      rw [update_self]
    · rw [update_of_ne hu]
      exact hright u r (h.others.announced hu ▸ hr)
  | helps _ x v owner hpc cells result =>
    by_cases hu : u = t
    · subst hu
      rw [result] at hr
      cases hr
    · rw [h.others.announced hu] at hr
      rw [cells]
      by_cases howner : u = owner
      · subst howner
        rw [update_self]
        rcases htimely (x,v,u) (by rw [hpc]; rfl) with hwon | hsame
        · exact hi.helper_right hpc hwon hr
        · exact hsame r hr
      · rw [update_of_ne howner]
        exact hright u r hr

theorem Pc.helps_some {pc : Pc V} {x owner : Nat} {v : V} (h : (x,v,owner) ∈ pc.helps) :
    ∃ first, pc = .helpCopy first x v owner := by
  cases pc with
  | helpCopy first =>
    cases h
    exact ⟨first,rfl⟩
  | _ => cases h

/-- Any other one breaks a cell: its owner is not the helper, which has no result. -/
theorem late_breaks (h : step zero s a = some s') (hi : Inv s) (hlate : ¬ Timely zero s a) :
    ¬ Announced zero s' := by
  cases a with
  | enqueue | dequeue => exact absurd trivial hlate
  | tick t =>
    simp only [Timely,not_forall,not_or] at hlate
    obtain ⟨⟨x,v,owner⟩,hhelps,-,r,hr,hne⟩ := hlate
    obtain ⟨first,hpc⟩ := Pc.helps_some hhelps
    have hknown := hi.known t
    rw [hpc] at hknown
    have hnone : announced s t = none := by
      simpa [announced,hpc,Pc.result] using hknown.1.1
    have howner : owner ≠ t := by
      rintro rfl
      rw [hnone] at hr
      cases hr
    intro hright
    have hcell := hright owner r (((step_steps hi h).others.announced howner).trans hr)
    simp only [step,hpc,enqueueTick,dequeueTick,Option.none_or,Option.some.injEq] at h
    subst h
    rw [show ((s.write owner v).goto t (.helpAdvance first x)).returnedVal owner = v from
      update_self ..] at hcell
    exact hne hcell

theorem Timely.tick (h : Timely zero s a) (hstep : step zero s a = some s') :
    Timely zero s (.tick a.thread) := by
  have hidle : s.pc a.thread = .idle → Timely zero s (.tick a.thread) := by
    intro hpc w hw
    rw [hpc] at hw
    cases hw
  cases a with
  | tick => exact h
  | enqueue | dequeue =>
    simp only [step] at hstep
    split at hstep
    next hpc => exact hidle hpc
    next => cases hstep

theorem init_inv (value returnedVal : Nat → V) : Inv (init value returnedVal) := by
  refine ⟨?_,fun _ => trivial,?_⟩
  · intro n x h
    cases h
  · intro t r h
    cases h

/-- In every run, the cells hold the results announced after every step, if and only if every
helper's write is timely: the owner of the cell has begun no `dequeue` since it won the node, or has
announced nothing or the same value. -/
theorem announced_iff_timely (zero : V) (value returnedVal : Nat → V)
    (ms : List (Move (State V) (Act V))) (s : State V)
    (run : Run (step zero) (fun _ _ => True) (init value returnedVal) ms s) :
    (∀ m ∈ ms, Announced zero m.post) ↔ ∀ m ∈ ms, Timely zero m.pre m.act := by
  refine run.good_iff (fun s => Inv s ∧ Announced zero s) (Announced zero) (Timely zero)
    ⟨init_inv value returnedVal,?_⟩ ?_ ?_
  · intro t r h
    cases h
  · rintro s a s' ⟨hi,hright⟩ htimely h
    have hsteps := step_steps hi h
    have hright' := hsteps.keeps hi hright (htimely.tick h)
    exact ⟨⟨hsteps.inv hi,hright'⟩,hright'⟩
  · rintro s a s' ⟨hi,-⟩ hlate h
    exact late_breaks h hi hlate

/-- Thread 1 has returned 7 when thread 2, which helps it, writes. -/
def helped : List (Act Nat) :=
  [.enqueue 0 7] ++ List.replicate 6 (.tick 0) ++ [.dequeue 1] ++ List.replicate 7 (.tick 1) ++
    [.dequeue 2] ++ List.replicate 9 (.tick 2) ++ List.replicate 3 (.tick 1) ++ [.tick 2]

theorem announced_iff_timely_helped :
    ∃ ms s, Run (step 0) (fun _ _ => True) (init (fun _ => 0) fun _ => 9) ms s ∧
      s.returned 1 = some (some 7) ∧ ∀ m ∈ ms, Announced 0 m.post := by
  obtain ⟨ms,s,run,hreturned⟩ := Run.play (step 0) (fun s a => decide (Timely 0 s a))
    (fun s => decide (s.returned 1 = some (some 7))) (init (fun _ => 0) fun _ => 9) helped
    (by decide +kernel)
  have hrun : Run (step 0) (fun _ _ => True) (init (fun _ => 0) fun _ => 9) ms s :=
    run.weaken fun _ _ _ => trivial
  refine ⟨ms,s,hrun,of_decide_eq_true hreturned,(announced_iff_timely 0 _ _ ms s hrun).mpr ?_⟩
  intro m hm
  exact of_decide_eq_true (run.each (fun _ => True) trivial (fun _ _ _ _ _ _ => trivial) m hm).2.1

/-- Thread 2 helps thread 1 to dequeue 7 and stops before it writes. Thread 1 returns 7, then
dequeues 8 and returns that. -/
def overtaken : List (Act Nat) :=
  [.enqueue 0 7] ++ List.replicate 6 (.tick 0) ++ [.enqueue 0 8] ++ List.replicate 6 (.tick 0) ++
    [.dequeue 1] ++ List.replicate 7 (.tick 1) ++ [.dequeue 2] ++ List.replicate 9 (.tick 2) ++
    List.replicate 3 (.tick 1) ++ [.dequeue 1] ++ List.replicate 10 (.tick 1) ++ [.tick 2]

/-- Its cell holds 7 again. -/
theorem cell_overwritten :
    ∃ ms s, Run (step 0) (fun _ _ => True) (init (fun _ => 0) fun _ => 9) ms s ∧
      ms.map Move.act = overtaken ∧ s.returned 1 = some (some 8) ∧ s.returnedVal 1 = 7 := by
  obtain ⟨s,hplay,h⟩ : ∃ s, play (step 0) (init (fun _ => 0) fun _ => 9) overtaken = some s ∧
      (s.returned 1,s.returnedVal 1) = (some (some 8),7) :=
    Option.map_eq_some_iff.mp (by decide +kernel)
  obtain ⟨ms,run,hacts⟩ := Run.performed (fun _ _ => True) hplay fun _ _ _ => trivial
  exact ⟨ms,s,run,hacts,congrArg Prod.fst h,congrArg Prod.snd h⟩

end Montage.FriedmanQueue
