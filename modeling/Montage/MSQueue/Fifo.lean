import Montage.MSQueue.Steps

namespace Montage.MSQueue
open Library List

variable {V : Type} {o : List Nat} {hd tl : Nat} {s s' : State V}
  {ms : List (Move (State V) (Act V))}

theorem Core.chain (h : Core o hd tl s) : Chain s.next (s.next s.head) (o.drop (hd + 1)) := by
  rw [h.links hd _ h.head]
  exact chain_of_order h.links (hd + 1)

theorem Core.payload_drop (h : Core o hd tl s) (hx : x ∈ o.drop (hd + 1)) :
    s.payload x = some x := by
  obtain ⟨i,hi⟩ := mem_iff_getElem?.mp hx
  rw [getElem?_drop] at hi
  exact h.payload (hd + 1 + i) x (by omega) hi

theorem Core.vals_iff (h : Core o hd tl s) : Vals s vs ↔ contents o hd s = vs.map some := by
  have hmap : (o.drop (hd + 1)).map (fun n => (s.payload n).bind s.val) = contents o hd s :=
    map_congr_left fun x hx => by rw [h.payload_drop hx]; rfl
  refine ⟨?_,fun hc => ⟨_,h.chain,hmap.trans hc⟩⟩
  rintro ⟨l,hl,hvals⟩
  cases hl.unique h.chain
  exact hmap.symm.trans hvals

theorem contents_transfer {c' : List (Option V)} {vs : List V} (h : Transfers (vs.map some) c' e) :
    ∃ vs', Fifo vs e vs' ∧ c' = vs'.map some := by
  cases e with
  | enq v => exact ⟨vs ++ [v],.enq,by simpa [Transfers] using h⟩
  | deq =>
    cases vs with
    | nil => cases h
    | cons w vs =>
      obtain ⟨hw,hvs⟩ := cons.inj h
      cases hw
      exact ⟨vs,.deq,hvs.symm⟩

theorem succeeds_note (s : State V) (a : Act V) : succeeds s.note a = succeeds s a := by
  cases a <;> rfl

theorem linearizes {m : Move (State V) (Act V)} (h : Inv o hd tl m.pre)
    (hs : step m.pre m.act = some m.post) : Linearizes m := by
  intro vs hvs
  obtain ⟨o',hd',tl',hinv,hdoes⟩ := step_keeps h hs
  have hc : contents o hd m.pre.note = vs.map some := h.vals_iff.mp hvs
  rw [Does,hc,succeeds_note] at hdoes
  split
  next hyes =>
    rw [if_pos hyes] at hdoes
    obtain ⟨e,hnone,hdone,htransfer⟩ := hdoes
    obtain ⟨vs',hfifo,hvs'⟩ := contents_transfer htransfer
    exact ⟨e,vs',hnone,hdone,hfifo,hinv.vals_iff.mpr hvs'⟩
  next hno =>
    rw [if_neg hno] at hdoes
    exact hinv.vals_iff.mpr hdoes

theorem Core.ordered (h : Core o hd tl s) : ∃ l ps vs, Ordered s l ps vs := by
  have hdrop : ∀ x, x ∈ o.drop (hd + 1) ↔ ∃ i : Nat, hd < i ∧ o[i]? = some x := by
    intro x
    rw [mem_iff_getElem?]
    simp only [getElem?_drop]
    refine ⟨?_,?_⟩
    · rintro ⟨i,hi⟩
      exact ⟨hd + 1 + i,by omega,hi⟩
    · rintro ⟨i,hlt,hi⟩
      exact ⟨i - (hd + 1),by rw [show hd + 1 + (i - (hd + 1)) = i by omega]; exact hi⟩
  obtain ⟨vs,hvs⟩ : ∃ vs : List V, (o.drop (hd + 1)).map s.val = vs.map some := by
    apply exists_map_some
    intro x hx
    obtain ⟨i,hlt,hi⟩ := (hdrop x).mp hx
    exact h.val i x (by omega) hi
  refine ⟨o.drop (hd + 1),o.drop (hd + 1),vs,h.chain,?_,?_,hvs,?_,?_⟩
  · rcases lt_or_eq_of_le h.order with hlt | heq
    · exact mem_cons_of_mem _ ((hdrop _).mpr ⟨tl,hlt,h.tail⟩)
    · have hsame := h.head.symm.trans (heq ▸ h.tail)
      rw [Option.some.inj hsame]
      exact mem_cons_self
  · exact map_congr_left fun x hx => h.payload_drop hx
  · rw [pairwise_map,pairwise_iff_getElem]
    intro i j hi hj hij
    refine h.increasing (hd + 1 + i) (hd + 1 + j) _ _ (by omega) (by omega) ?_ ?_
    · rw [← getElem?_drop]
      exact getElem?_eq_getElem hi
    · rw [← getElem?_drop]
      exact getElem?_eq_getElem hj
  · intro p
    rw [h.committed,h.retired,hdrop]
    refine ⟨?_,?_⟩
    · rintro ⟨⟨i,hpos,hi⟩,hnot⟩
      refine ⟨i,?_,hi⟩
      by_contra hle
      exact hnot ⟨i,hpos,by omega,hi⟩
    · rintro ⟨i,hlt,hi⟩
      refine ⟨⟨i,by omega,hi⟩,?_⟩
      rintro ⟨j,_,hle,hj⟩
      have := h.position hi hj
      omega

theorem tick_sawEmpty (hs : tick s t fails = some s') :
    (s'.thread u).sawEmpty = (s.thread u).sawEmpty := by
  unfold tick at hs
  by_cases hu : u = t <;>
    (repeat' split at hs) <;> cases hs <;>
    simp [State.goto,State.put,State.abort,State.commit,State.swing,hu]

theorem act_sawEmpty (hs : act s a = some s') :
    (a.calls t → (s'.thread t).sawEmpty = false) ∧
      (¬a.calls t → (s'.thread t).sawEmpty = (s.thread t).sawEmpty) := by
  cases a with
  | tick => exact ⟨False.elim,fun _ => tick_sawEmpty hs⟩
  | enqueue =>
    simp only [act] at hs
    split at hs
    next =>
      cases hs
      refine ⟨?_,?_⟩
      · rintro rfl
        simp [State.put]
      · intro hne
        simp [State.put,State.newNode,Function.update_of_ne (Ne.symm hne)]
    next => cases hs
  | dequeue =>
    simp only [act] at hs
    split at hs
    next =>
      cases hs
      refine ⟨?_,?_⟩
      · rintro rfl
        simp [State.put]
      · intro hne
        simp [State.put,Function.update_of_ne (Ne.symm hne)]
    next => cases hs

theorem was_empty (run : Run step ok init ms s) (hseen : (s.thread t).sawEmpty = true) :
    WasEmpty ms t := by
  induction run with
  | nil => cases hseen
  | @snoc ms s a s' _ _ hs ih =>
    have hact := act_sawEmpty (t := t) hs
    have hcall : ¬a.calls t := fun hcall => by simp [hact.1 hcall] at hseen
    have hsaw : (s.thread t).sawEmpty = true ∨ s.next s.head = none := by
      simpa [hact.2 hcall,State.note] using hseen
    rcases hsaw with hsaw | hnone
    · exact Since.snoc (ih hsaw) hcall
    · refine Since.now ⟨[],?_,rfl⟩ hcall
      rw [hnone]
      exact .nil

theorem Inv.returns (h : Inv o hd tl s) (hseen : (s.thread t).sawEmpty = true → WasEmpty ms t) :
    Returns ms t (s.thread t) := by
  have ht := h.threads t
  unfold Returns
  cases hpc : (s.thread t).pc <;> rw [hpc] at ht
  case enqueued => exact ht.2
  case dequeued res =>
    cases res with
    | some => exact ht.2
    | none => exact ⟨ht.2.1,hseen ht.2.2⟩
  case crashed => exact ht
  all_goals trivial

/-- In every run the successful `CAS_verify`s are the operations of a queue, calls return what
they have done, and in every state the registered and unretired payloads are those of the
queue, in the order of their serial numbers. -/
theorem queue_fifo (run : Run step (fun _ _ => True) (init : State V) ms s) :
    (∃ l ps vs, Ordered s l ps vs) ∧ (∀ m ∈ ms, Linearizes m) ∧
      ∀ t, Returns ms t (s.thread t) := by
  let I := fun s : State V => ∃ o hd tl, Inv o hd tl s
  have hinit : I init := ⟨[0],0,0,inv_init⟩
  have hkeep : ∀ s a s', I s → True → step s a = some s' → I s' := by
    rintro s a s' ⟨o,hd,tl,h⟩ _ hs
    obtain ⟨o',hd',tl',h',_⟩ := step_keeps h hs
    exact ⟨o',hd',tl',h'⟩
  obtain ⟨o,hd,tl,h⟩ := run.invariant I hinit hkeep
  refine ⟨h.ordered,?_,fun t => h.returns (was_empty run)⟩
  intro m hm
  obtain ⟨⟨o,hd,tl,h⟩,_,hs⟩ := run.each I hinit hkeep m hm
  exact linearizes h hs

/-- A thread enqueues 7, and another one dequeues it. -/
theorem queue_fifo_pair : ∃ ms s, Run step (fun _ _ => True) (init : State Nat) ms s ∧
    (s.thread 1).pc = .dequeued (some 7) ∧
    (∃ l ps vs, Ordered s l ps vs) ∧ (∀ m ∈ ms, Linearizes m) ∧
      ∀ t, Returns ms t (s.thread t) := by
  let acts : List (Act Nat) := .enqueue 0 7 :: replicate 7 (.tick 0 false) ++
    .dequeue 1 :: replicate 8 (.tick 1 false)
  have hplay : ∃ s, play step init acts = some s ∧ (s.thread 1).pc = .dequeued (some 7) :=
    Option.map_eq_some_iff.mp (by decide)
  obtain ⟨s,hs,hpc⟩ := hplay
  obtain ⟨ms,run⟩ := Run.nil.reach hs
  exact ⟨ms,s,run,hpc,queue_fifo run⟩

end Montage.MSQueue
