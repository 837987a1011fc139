import Montage.SOFTHashTable.Steps

namespace Montage.SOFTHashTable
open Library Function List Option

variable (s : State)

def Hands (c : Nat × Nat) (n : Nat) : Prop :=
  (∃ t, s.call t = c ∧ (s.pc t).taking = some (n,(s.nodes n).value)) ∨
    ∃ e ∈ s.log, e.call = c ∧ e.node = some n ∧ e.ret = some (s.nodes n).value

/-- Every deleted node is handed to one call, which has taken it. A call that has won a node returns
its value, and one that has not returns nothing, nor is about to return anything. -/
structure Handed : Prop where
  once : ∀ n < s.made, (s.next n).state = .deleted →
    ∃ c, s.taken n = some c ∧ ∀ c', Hands s c' n ↔ c' = c
  won : ∀ e ∈ s.log, e.own = true →
    ∃ n, e.node = some n ∧ s.taken n = some e.call ∧ e.ret = some (s.nodes n).value
  lost : ∀ e ∈ s.log, e.own = false → e.ret = none
  losing : ∀ t r, (s.pc t).race = some r → r.own = false → r.ret = none

/-- A thread that is about to test, after the race, whether its node is in `INTEND_TO_DELETE`. -/
def Pc.tests : Pc → Option Race
  | .deleteTest r => some r
  | _ => none

/-- Whoever finds a node in `INTEND_TO_DELETE` after the race has brought it there. -/
def Undisturbed : Act → Prop
  | .tick t => ∀ r ∈ (s.pc t).tests, r.own = false → (s.next r.node).state ≠ .intendToDelete
  | .call _ _ => True

instance : (a : Act) → Decidable (Undisturbed s a)
  | .call _ _ => .isTrue trivial
  | .tick t => inferInstanceAs (Decidable (∀ r ∈ (s.pc t).tests, r.own = false →
      (s.next r.node).state ≠ .intendToDelete))

/-- A call has won a node, which is in one of two states, and has its value if there is a result. -/
structure Won (c : Nat × Nat) (n : Nat) (ret : Option (List Nat)) (state : NodeState) :
    Prop where
  made : n < s.made
  taken : s.taken n = some c
  state : (s.next n).state = state
  ret : ∀ v ∈ ret, v = (s.nodes n).value

def Known (c : Nat × Nat) : Pc → Prop
  | .removeTest r | .removeLoad r | .removeCas r _ => r.own = false ∧ r.ret = none
  | .destroy r => r.ret = none ∧ (r.own = true → Won s c r.node r.ret .intendToDelete)
  | .deleteTest r =>
    (r.own = false → r.ret = none) ∧
      (r.own = true → Won s c r.node r.ret .intendToDelete ∨
        Won s c r.node r.ret .deleted ∧ r.ret.isSome)
  | .deleteLoad r | .deleteCas r _ =>
    r.own = true ∧ Won s c r.node r.ret .intendToDelete ∧ r.ret.isSome
  | .unlink r | .unlinkCas r _ => r.own = true ∧ Won s c r.node r.ret .deleted ∧ r.ret.isSome
  | .removed node own ret =>
    (own = false → ret = none) ∧
      (own = true → ∃ n, node = some n ∧ Won s c n ret .deleted ∧ ret.isSome)
  | _ => True

structure Inv : Prop where
  closed : Closed s
  taken : ∀ n c, s.taken n = some c → n < s.made ∧ (s.next n).state.staying = false
  state : ∀ n < s.made, (s.next n).state.staying = false → s.taken n ≠ none
  known : ∀ t, Known s (s.call t) (s.pc t)
  log : ∀ e ∈ s.log, Known s e.call (.removed e.node e.own e.ret)
  held : ∀ n < s.made, ∀ c, s.taken n = some c → (s.next n).state = .deleted → Hands s c n

variable {cfg : Config} {s s' : State} {a : Act} {t n : Nat} {c : Nat × Nat} {pc : Pc}
  {v : List Nat} {ret : Option (List Nat)} {state : NodeState}

theorem Known.taking (h : Known s c pc) (htaking : pc.taking = some (n,v)) : s.taken n = some c := by
  have hrace : ∀ r : Race, r.ret = none → r.ret.map (fun v => (r.node,v)) ≠ some (n,v) := by
    intro r hr
    rw [hr]
    exact fun heq => (by cases heq)
  have hwon : ∀ (r : Race) state, Won s c r.node r.ret state → r.ret.map (fun v => (r.node,v)) = some (n,v) →
      s.taken n = some c := by
    intro r state hw heq
    obtain ⟨v',-,heq⟩ := map_eq_some_iff.mp heq
    cases heq
    exact hw.taken
  cases pc <;> simp only [Known] at h
  case removeTest r => exact absurd htaking (hrace r h.2)
  case removeLoad r => exact absurd htaking (hrace r h.2)
  case removeCas r p => exact absurd htaking (hrace r h.2)
  case destroy r => exact absurd htaking (hrace r h.1)
  case deleteTest r =>
    cases hown : r.own with
    | false => exact absurd htaking (hrace r (h.1 hown))
    | true =>
      rcases h.2 hown with hw | ⟨hw,-⟩ <;> exact hwon r _ hw htaking
  case deleteLoad r => exact hwon r _ h.2.1 htaking
  case deleteCas r p => exact hwon r _ h.2.1 htaking
  case unlink r => exact hwon r _ h.2.1 htaking
  case unlinkCas r p => exact hwon r _ h.2.1 htaking
  case removed node own ret =>
    cases node with
    | none => cases htaking
    | some =>
      cases ret with
      | none => cases htaking
      | some =>
        cases htaking
        cases own with
        | false => exact absurd (h.1 rfl) (by simp)
        | true =>
          obtain ⟨k,hk,hw,-⟩ := h.2 rfl
          cases hk
          exact hw.taken
  all_goals cases htaking

theorem Won.mono (h : Won s c n ret state) (hmade : s.made ≤ s'.made)
    (hvalue : (s'.nodes n).value = (s.nodes n).value) (htaken : s'.taken n = s.taken n)
    (hstate : (s'.next n).state = (s.next n).state) : Won s' c n ret state := by
  refine ⟨lt_of_lt_of_le h.made hmade,htaken.trans h.taken,hstate.trans h.state,?_⟩
  rw [hvalue]
  exact h.ret

theorem Known.mono (h : Known s c pc)
    (hwon : ∀ n ret state, Won s c n ret state → Won s' c n ret state) : Known s' c pc := by
  cases pc <;> simp only [Known] at h ⊢
  case destroy r => exact ⟨h.1,fun hown => hwon _ _ _ (h.2 hown)⟩
  case deleteTest r =>
    refine ⟨h.1,fun hown => ?_⟩
    rcases h.2 hown with hw | ⟨hw,hret⟩
    · exact .inl (hwon _ _ _ hw)
    · exact .inr ⟨hwon _ _ _ hw,hret⟩
  case deleteLoad r => exact ⟨h.1,hwon _ _ _ h.2.1,h.2.2⟩
  case deleteCas r p => exact ⟨h.1,hwon _ _ _ h.2.1,h.2.2⟩
  case unlink r => exact ⟨h.1,hwon _ _ _ h.2.1,h.2.2⟩
  case unlinkCas r p => exact ⟨h.1,hwon _ _ _ h.2.1,h.2.2⟩
  case removed node own ret =>
    refine ⟨h.1,fun hown => ?_⟩
    obtain ⟨n,hn,hw,hret⟩ := h.2 hown
    exact ⟨n,hn,hwon _ _ _ hw,hret⟩
  all_goals exact h

structure Moved (s s' : State) (t : Nat) : Prop where
  closed : Closed s'
  others : ∀ u, u ≠ t → s'.pc u = s.pc u ∧ s'.calls u = s.calls u
  made : s.made ≤ s'.made
  value : ∀ n < s.made, (s'.nodes n).value = (s.nodes n).value
  stays : ∀ n c, s.taken n = some c → c ≠ s.call t ∨ (s.next n).state = .deleted →
    s'.taken n = s.taken n ∧ (s'.next n).state = (s.next n).state
  taken : ∀ n c, s'.taken n = some c → n < s'.made ∧ (s'.next n).state.staying = false
  state : ∀ n < s'.made, (s'.next n).state.staying = false → s'.taken n ≠ none
  known : Known s' (s'.call t) (s'.pc t)
  older : ∀ e ∈ s.log, e ∈ s'.log
  newer : ∀ e ∈ s'.log, e ∈ s.log ∨ Known s' e.call (.removed e.node e.own e.ret)
  carry : ∀ n v, (s.pc t).taking = some (n,v) →
    s'.call t = s.call t ∧ (s'.pc t).taking = some (n,v) ∨
      ∃ e ∈ s'.log, e.call = s.call t ∧ e.node = some n ∧ e.ret = some v
  held : ∀ n c, s'.taken n = some c → (s'.next n).state = .deleted →
    n < s.made ∧ (s.next n).state = .deleted ∨ Hands s' c n

theorem Moved.won (hm : Moved s s' t) (h : Won s c n ret state)
    (hstay : c ≠ s.call t ∨ state = .deleted) : Won s' c n ret state := by
  obtain ⟨htaken,hstate⟩ := hm.stays n c h.taken (h.state ▸ hstay)
  exact h.mono hm.made (hm.value n h.made) htaken hstate

theorem Moved.hands (hm : Moved s s' t) (hn : n < s.made) (h : Hands s c n) : Hands s' c n := by
  rcases h with ⟨u,hu,htaking⟩ | ⟨e,he,hcall,hnode,hret⟩
  · rw [← hm.value n hn] at htaking
    by_cases hut : u = t
    · subst hut
      rcases hm.carry n _ htaking with ⟨hcall,htaking'⟩ | ⟨e,he,hcall,hnode,hret⟩
      · exact .inl ⟨u,hcall.trans hu,htaking'⟩
      · exact .inr ⟨e,he,hcall.trans hu,hnode,hret⟩
    · obtain ⟨hpc,hcalls⟩ := hm.others u hut
      refine .inl ⟨u,?_,by rwa [hpc]⟩
      rw [State.call,hcalls]
      exact hu
  · rw [← hm.value n hn] at hret
    exact .inr ⟨e,hm.older e he,hcall,hnode,hret⟩

theorem Moved.inv (hm : Moved s s' t) (h : Inv s) : Inv s' := by
  refine ⟨hm.closed,hm.taken,hm.state,?_,?_,?_⟩
  · intro u
    by_cases hut : u = t
    · subst hut
      exact hm.known
    · obtain ⟨hpc,hcalls⟩ := hm.others u hut
      have hcall : s'.call u = s.call u := by rw [State.call,State.call,hcalls]
      rw [hpc,hcall]
      refine (h.known u).mono fun n ret state hw => hm.won hw (.inl ?_)
      intro heq
      exact hut (congrArg Prod.fst heq)
  · intro e he
    rcases hm.newer e he with he | hknown
    · have hknown := h.log e he
      refine ⟨hknown.1,fun hown => ?_⟩
      obtain ⟨n,hn,hw,hret⟩ := hknown.2 hown
      exact ⟨n,hn,hm.won hw (.inr rfl),hret⟩
    · exact hknown
  · intro n hn c htaken hstate
    rcases hm.held n c htaken hstate with ⟨hn,hdeleted⟩ | hhands
    · obtain ⟨c',hc'⟩ := ne_none_iff_exists'.mp (h.state n hn (by rw [hdeleted]; rfl))
      have hsame := (hm.stays n c' hc' (.inr hdeleted)).1
      rw [htaken,hc'] at hsame
      cases hsame
      exact hm.hands hn (h.held n hn c hc' hdeleted)
    · exact hhands

theorem Plain.won (hp : Plain s s') (h : Inv s) (hw : Won s c n ret state) : Won s' c n ret state :=
  hw.mono hp.made (hp.value n hw.made) (by rw [hp.taken])
    (hp.state_eq hw.made (.inl (h.taken n c hw.taken).2))

theorem Quiet.moved (hq : Quiet s s' t) (h : Inv s) (hknown : Known s' (s.call t) (s'.pc t))
    (hcarry : ∀ n v, (s.pc t).taking = some (n,v) → (s'.pc t).taking = some (n,v)) :
    Moved s s' t := by
  have hcall : ∀ u, s'.call u = s.call u := by
    intro u
    rw [State.call,State.call,hq.calls]
  constructor
  case closed => exact hq.closed
  case others => exact fun u hu => ⟨hq.others u hu,by rw [hq.calls]⟩
  case made => exact hq.plain.made
  case value => exact hq.plain.value
  case stays =>
    intro n c htaken _
    obtain ⟨hn,hstaying⟩ := h.taken n c htaken
    exact ⟨by rw [hq.plain.taken],hq.plain.state_eq hn (.inl hstaying)⟩
  case taken =>
    intro n c htaken
    rw [hq.plain.taken] at htaken
    obtain ⟨hn,hstaying⟩ := h.taken n c htaken
    refine ⟨lt_of_lt_of_le hn hq.plain.made,?_⟩
    rw [hq.plain.state_eq hn (.inl hstaying)]
    exact hstaying
  case state =>
    intro n hn hstaying
    by_cases hold : n < s.made
    · rw [hq.plain.taken]
      rw [hq.plain.state_eq hold (.inr hstaying)] at hstaying
      exact h.state n hold hstaying
    · rw [hq.plain.fresh n hn (Nat.le_of_not_lt hold)] at hstaying
      cases hstaying
  case known => rwa [hcall]
  case older =>
    rw [hq.log]
    exact fun e he => he
  case newer =>
    rw [hq.log]
    exact fun e he => .inl he
  case carry => exact fun n v htaking => .inl ⟨hcall t,hcarry n v htaking⟩
  case held =>
    intro n c htaken hdeleted
    rw [hq.plain.taken] at htaken
    obtain ⟨hn,hstaying⟩ := h.taken n c htaken
    exact .inl ⟨hn,(hq.plain.state_eq hn (.inl hstaying)).symm.trans hdeleted⟩

theorem Pc.begins.known (h : pc.begins) : Known s c pc := by
  cases pc <;> simp only [Pc.begins,Pc.race] at h
  case removeTest r => exact h
  case removed node own ret =>
    refine ⟨fun _ => h.2,fun hown => ?_⟩
    rw [h.1] at hown
    cases hown
  all_goals first | exact trivial | cases h

theorem Outside.moved (ho : Outside s s' t) (h : Inv s) : Moved s s' t := by
  refine ho.quiet.moved h ho.begins.known ?_
  intro n v htaking
  rw [ho.before] at htaking
  cases htaking

section
variable (h : Inv s)
include h

theorem Inv.moved_local (hclosed : Closed s') (hnodes : s'.nodes = s.nodes)
    (hmade : s'.made = s.made) (htaken : s'.taken = s.taken)
    (hothers : ∀ u, u ≠ t → s'.pc u = s.pc u ∧ s'.calls u = s.calls u)
    (hknown : Known s' (s'.call t) (s'.pc t)) (holder : ∀ e ∈ s.log, e ∈ s'.log)
    (hnewer : ∀ e ∈ s'.log, e ∈ s.log ∨ Known s' e.call (.removed e.node e.own e.ret))
    (hcarry : ∀ n v, (s.pc t).taking = some (n,v) →
      s'.call t = s.call t ∧ (s'.pc t).taking = some (n,v) ∨
        ∃ e ∈ s'.log, e.call = s.call t ∧ e.node = some n ∧ e.ret = some v) : Moved s s' t := by
  have hnext : ∀ n, s'.next n = s.next n := by
    intro n
    rw [State.next,State.next,hnodes]
  refine ⟨hclosed,hothers,le_of_eq hmade.symm,fun n _ => by rw [hnodes],
    fun n c _ _ => ⟨by rw [htaken],by rw [hnext]⟩,?_,?_,hknown,holder,hnewer,hcarry,?_⟩
  · rw [htaken,hmade]
    intro n c hn
    rw [hnext]
    exact h.taken n c hn
  · rw [htaken,hmade]
    intro n hn
    rw [hnext]
    exact h.state n hn
  · rw [htaken]
    intro n c hn
    rw [hnext]
    exact fun hdeleted => .inl ⟨(h.taken n c hn).1,hdeleted⟩

theorem call_moved {op : Op} (hidle : s.pc t = .idle) : Moved s { s.goto t (.start op) with
      calls := update s.calls t (s.calls t + 1) } t := by
  have hclosed : Closed (s.goto t (.start op)) := h.closed.goto fun m hm => (by cases hm)
  refine h.moved_local ⟨hclosed.sentinels,hclosed.next,hclosed.pcs⟩ rfl rfl rfl ?_ ?_
    (fun e he => he) (fun e he => .inl he) ?_
  · exact fun u hu => ⟨goto_others s t _ u hu,update_of_ne hu _ _⟩
  · change Known _ _ ((s.goto t (.start op)).pc t)
    rw [goto_pc]
    trivial
  · intro n v htaking
    rw [hidle] at htaking
    cases htaking

theorem return_moved {node : Option Nat} {own : Bool} (hpc : s.pc t = .removed node own ret) :
    Moved s { s.goto t .idle with log := s.log ++ [⟨s.call t,node,own,ret⟩] } t := by
  have hclosed : Closed (s.goto t .idle) := h.closed.goto fun m hm => (by cases hm)
  have hknown := h.known t
  rw [hpc] at hknown
  refine h.moved_local ⟨hclosed.sentinels,hclosed.next,hclosed.pcs⟩ rfl rfl rfl ?_ ?_
    (fun e he => mem_append_left _ he) ?_ ?_
  · exact fun u hu => ⟨goto_others s t _ u hu,rfl⟩
  · change Known _ _ ((s.goto t .idle).pc t)
    rw [goto_pc]
    trivial
  · intro e he
    rcases mem_append.mp he with he | he
    · exact .inl he
    · cases mem_singleton.mp he
      exact .inr (hknown.mono fun n ret state hw => ⟨hw.made,hw.taken,hw.state,hw.ret⟩)
  · intro n v htaking
    rw [hpc] at htaking
    cases node with
    | none => cases htaking
    | some =>
      cases ret with
      | none => cases htaking
      | some =>
        cases htaking
        exact .inr ⟨_,mem_append_right _ (mem_singleton_self _),rfl,rfl,rfl⟩

variable {r : Race} {p : Option Nat}

/-- The call that has won a node moves it on to the next state, and goes on to `pc`. -/
theorem Inv.moved_on {node : Nat} {taken : Nat → Option (Nat × Nat)}
    (hstaying : state.staying = false) (hnode : node < s.made) (hp : ∀ m ∈ p, m < s.made)
    (hrefs : ∀ m ∈ pc.refs, m < s.made) (htaken : ∀ n, n ≠ node → taken n = s.taken n)
    (hself : taken node = some (s.call t))
    (hstays : ∀ n c, s.taken n = some c → c ≠ s.call t ∨ (s.next n).state = .deleted → n ≠ node)
    (hknown : ∀ s' : State, (∀ ret, (∀ v ∈ ret, v = (s.nodes node).value) →
      Won s' (s.call t) node ret state) → Known s' (s.call t) pc)
    (hcarry : ∀ n v, (s.pc t).taking = some (n,v) → pc.taking = some (n,v))
    (hheld : state = .deleted → pc.taking = some (node,(s.nodes node).value)) :
    Moved s { (s.setNext node ⟨p,state⟩).goto t pc with taken := taken } t := by
  have hclosed : Closed ((s.setNext node ⟨p,state⟩).goto t pc) := (h.closed.setNext hp).goto hrefs
  have hpc : ((s.setNext node ⟨p,state⟩).goto t pc).pc t = pc := goto_pc _ t _
  have hothers : ∀ n, n ≠ node → (s.setNext node ⟨p,state⟩).next n = s.next n := by
    intro n hn
    rw [setNext_next,if_neg hn]
  have hnext : (s.setNext node ⟨p,state⟩).next node = ⟨p,state⟩ := by
    rw [setNext_next,if_pos rfl]
  constructor
  case closed => exact ⟨hclosed.sentinels,hclosed.next,hclosed.pcs⟩
  case others => exact fun u hu => ⟨goto_others _ t _ u hu,rfl⟩
  case made => exact le_rfl
  case value => exact fun n _ => setNext_value s node _ n
  case stays =>
    intro n c hn hor
    have hne := hstays n c hn hor
    exact ⟨htaken n hne,congrArg Ref.state (hothers n hne)⟩
  case taken =>
    intro n c hn
    by_cases hne : n = node
    · subst hne
      exact ⟨hnode,(congrArg (fun x => x.state.staying) hnext).trans hstaying⟩
    · obtain ⟨hmade,hstaying⟩ := h.taken n c ((htaken n hne).symm.trans hn)
      exact ⟨hmade,(congrArg (fun x => x.state.staying) (hothers n hne)).trans hstaying⟩
  case state =>
    intro n hn hstaying
    change taken n ≠ none
    by_cases hne : n = node
    · rw [hne,hself]
      exact fun hnone => (by cases hnone)
    · rw [htaken n hne]
      exact h.state n hn ((congrArg (fun x => x.state.staying) (hothers n hne)).symm.trans hstaying)
  case known =>
    change Known _ (s.call t) (((s.setNext node ⟨p,state⟩).goto t pc).pc t)
    rw [hpc]
    refine hknown _ fun ret hret => ⟨hnode,hself,congrArg Ref.state hnext,fun v hv => ?_⟩
    exact (hret v hv).trans (setNext_value s node _ node).symm
  case older => exact fun e he => he
  case newer => exact fun e he => .inl he
  case carry => exact fun n v htaking => .inl ⟨rfl,(congrArg Pc.taking hpc).trans (hcarry n v htaking)⟩
  case held =>
    intro n c hn hdeleted
    by_cases hne : n = node
    · subst hne
      refine .inr (.inl ⟨t,some.inj (hself.symm.trans hn),(congrArg Pc.taking hpc).trans ?_⟩)
      rw [hheld ((congrArg Ref.state hnext).symm.trans hdeleted)]
      exact congrArg (fun v => some (n,v)) (setNext_value s n _ n).symm
    · exact .inl ⟨(h.taken n c ((htaken n hne).symm.trans hn)).1,
        (congrArg Ref.state (hothers n hne)).symm.trans hdeleted⟩

theorem win_moved (hpc : s.pc t = .removeCas r p) (hnext : s.next r.node = ⟨p,.inserted⟩) :
    Moved s { (s.setNext r.node ⟨p,.intendToDelete⟩).goto t (.destroy { r with own := true }) with
      taken := update s.taken r.node (some (s.call t)) } t := by
  have hrefs := h.closed.pcs t
  have hknown := h.known t
  rw [hpc] at hrefs hknown
  simp only [Pc.refs,forall_mem_cons,toList_refs] at hrefs
  obtain ⟨hpred,hnode,hp⟩ := hrefs
  refine h.moved_on rfl hnode hp (pair_refs hpred hnode) (fun n hn => update_of_ne hn _ _)
    (update_self ..) ?_ ?_ ?_ (fun hstate => by cases hstate)
  · rintro n c hn - rfl
    have hstaying := (h.taken r.node c hn).2
    rw [hnext] at hstaying
    cases hstaying
  · intro s' hwon
    refine ⟨hknown.2,fun _ => hwon _ fun v hv => ?_⟩
    rw [hknown.2] at hv
    cases hv
  · intro n v htaking
    rw [hpc,Pc.taking_of_race rfl,hknown.2] at htaking
    cases htaking

theorem delete_moved (hpc : s.pc t = .deleteCas r p) (hnext : s.next r.node = ⟨p,.intendToDelete⟩) :
    Moved s ((s.setNext r.node ⟨p,.deleted⟩).goto t (.deleteTest r)) t := by
  have hrefs := h.closed.pcs t
  have hknown := h.known t
  rw [hpc] at hrefs hknown
  simp only [Pc.refs,forall_mem_cons,toList_refs] at hrefs
  obtain ⟨hpred,hnode,hp⟩ := hrefs
  obtain ⟨hown,hwon,hret⟩ := hknown
  change Moved s { (s.setNext r.node ⟨p,.deleted⟩).goto t (.deleteTest r) with taken := s.taken } t
  refine h.moved_on rfl hnode hp (pair_refs hpred hnode) (fun _ _ => rfl) hwon.taken ?_ ?_ ?_ ?_
  · rintro n c hn hor rfl
    rw [hwon.taken] at hn
    rcases hor with hor | hor
    · exact hor (some.inj hn).symm
    · rw [hnext] at hor
      cases hor
  · intro s' hwon'
    refine ⟨fun hlost => ?_,fun _ => .inr ⟨hwon' _ hwon.ret,hret⟩⟩
    rw [hown] at hlost
    cases hlost
  · intro n v htaking
    rw [hpc] at htaking
    exact htaking
  · intro _
    obtain ⟨v,hv⟩ := isSome_iff_exists.mp hret
    rw [Pc.taking_of_race rfl,hv,hwon.ret v hv]
    rfl

theorem removeTick_moved (hundisturbed : Undisturbed s (.tick t))
    (htick : removeTick s t (s.pc t) = some s') : Moved s s' t := by
  have hrefs := h.closed.pcs t
  have hknown := h.known t
  -- a step without a write keeps what its thread is taking
  have hgo : ∀ {pc : Pc}, some (s.goto t pc) = some s' → (∀ m ∈ pc.refs, m < s.made) →
      Known s (s.call t) pc →
      (∀ n v, (s.pc t).taking = some (n,v) → pc.taking = some (n,v)) → Moved s s' t := by
    rintro pc ⟨⟩ hpc hknown hcarry
    refine (goto_quiet h.closed hpc).moved h ?_ ?_
    · rw [goto_pc]
      exact hknown.mono fun n ret state hw => ⟨hw.made,hw.taken,hw.state,hw.ret⟩
    · rw [goto_pc]
      exact hcarry
  cases hpc : s.pc t <;> rw [hpc] at htick hrefs hgo hknown <;> simp only [removeTick] at htick
  case removeTest r =>
    split at htick
    next => exact hgo htick hrefs hknown fun n v h => h
    next =>
      refine hgo htick hrefs ⟨hknown.2,fun hown => ?_⟩ fun n v h => h
      rw [hknown.1] at hown
      cases hown
  case removeLoad r =>
    refine hgo htick ?_ hknown fun n v h => h
    simp only [Pc.refs,forall_mem_cons,toList_refs] at hrefs ⊢
    exact ⟨hrefs.1,hrefs.2.1,h.closed.next r.node hrefs.2.1⟩
  case removeCas r p =>
    split at htick
    next hnext =>
      cases htick
      exact win_moved h hpc hnext
    next =>
      refine hgo htick ?_ hknown fun n v h => h
      simp only [Pc.refs,forall_mem_cons,toList_refs] at hrefs ⊢
      exact ⟨hrefs.1,hrefs.2.1,by simp⟩
  case destroy r =>
    split at htick
    next =>
      refine hgo htick hrefs ⟨fun _ => hknown.1,fun hown => .inl (hknown.2 hown)⟩ fun n v h => h
    next =>
      refine hgo htick (by simp [Pc.refs]) trivial fun n v htaking => ?_
      rw [Pc.taking_of_race rfl,hknown.1] at htaking
      cases htaking
  case deleteTest r =>
    split at htick
    next hstate =>
      have hown : r.own = true := by
        by_contra hlost
        exact hundisturbed r (by rw [hpc]; rfl) (Bool.eq_false_iff.mpr hlost) hstate
      have hwon : Won s (s.call t) r.node r.ret .intendToDelete := by
        rcases hknown.2 hown with hw | ⟨hw,-⟩
        · exact hw
        · cases hw.state.symm.trans hstate
      refine hgo htick hrefs ⟨hown,⟨hwon.made,hwon.taken,hwon.state,?_⟩,rfl⟩ ?_
      · rintro v ⟨⟩
        rfl
      · intro n v htaking
        rw [Pc.taking_of_race rfl] at htaking ⊢
        obtain ⟨v',hv',heq⟩ := map_eq_some_iff.mp htaking
        cases heq
        rw [hwon.ret v hv']
        rfl
    next hstate =>
      split at htick
      next hown =>
        refine hgo htick hrefs ⟨hown,?_⟩ fun n v h => h
        rcases hknown.2 hown with hw | hw
        · exact absurd hw.state hstate
        · exact hw
      next hlost =>
        have hret := hknown.1 (Bool.eq_false_iff.mpr hlost)
        refine hgo htick (by simp [Pc.refs]) ⟨fun _ => hret,fun hown => (by cases hown)⟩ ?_
        intro n v htaking
        rw [Pc.taking_of_race rfl,hret] at htaking
        cases htaking
  case deleteLoad r =>
    refine hgo htick ?_ hknown fun n v h => h
    simp only [Pc.refs,forall_mem_cons,toList_refs] at hrefs ⊢
    exact ⟨hrefs.1,hrefs.2.1,h.closed.next r.node hrefs.2.1⟩
  case deleteCas r p =>
    rw [State.cas] at htick
    split at htick
    next hnext =>
      cases htick
      exact delete_moved h hpc hnext
    next =>
      refine hgo htick ?_ ⟨fun hlost => ?_,fun _ => .inl hknown.2.1⟩ fun n v h => h
      · simp only [Pc.refs,forall_mem_cons,toList_refs] at hrefs ⊢
        exact ⟨hrefs.1,hrefs.2.1,by simp⟩
      · rw [hknown.1] at hlost
        cases hlost
  case unlink r =>
    refine hgo htick ?_ hknown fun n v h => h
    simp only [Pc.refs,forall_mem_cons,toList_refs] at hrefs ⊢
    exact ⟨hrefs.1,hrefs.2.1,h.closed.next r.node hrefs.2.1⟩
  case unlinkCas r succ =>
    simp only [Pc.refs,forall_mem_cons,toList_refs] at hrefs
    cases htick
    have hquiet : Quiet s ((s.cas r.pred ⟨some r.node,r.predState⟩ ⟨succ,r.predState⟩).goto t
        (.removed (some r.node) r.own r.ret)) t :=
      cas_quiet h.closed hrefs.2.2 (.inl rfl) (by simp [Pc.refs])
    refine hquiet.moved h ?_ ?_
    · rw [goto_pc]
      refine ⟨fun hlost => ?_,fun _ => ⟨r.node,rfl,hquiet.plain.won h hknown.2.1,hknown.2.2⟩⟩
      rw [hknown.1] at hlost
      cases hlost
    · intro n v htaking
      rw [hpc,Pc.taking_of_race rfl] at htaking
      obtain ⟨v',hv',heq⟩ := map_eq_some_iff.mp htaking
      cases heq
      rw [goto_pc,hv']
      rfl
  case removed node own ret =>
    cases htick
    exact return_moved h hpc
  all_goals cases htick

theorem step_inv (hundisturbed : Undisturbed s a) (hstep : step cfg s a = some s') : Inv s' := by
  cases a with
  | call =>
    simp only [step] at hstep
    split at hstep
    next hidle =>
      cases hstep
      exact (call_moved h hidle).inv h
    next => cases hstep
  | tick =>
    rcases or_eq_some_iff.mp hstep with htick | ⟨-,hstep⟩
    · exact ((findTick_outside h.closed htick).moved h).inv h
    · rcases or_eq_some_iff.mp hstep with htick | ⟨-,htick⟩
      · exact ((insertTick_outside h.closed htick).moved h).inv h
      · exact (removeTick_moved h hundisturbed htick).inv h

omit h in
theorem Known.losing (h : Known s c pc) {r : Race} (hrace : pc.race = some r) (hlost : r.own = false) :
    r.ret = none := by
  have habsurd : r.own = true → r.ret = none := by
    intro hown
    rw [hlost] at hown
    cases hown
  cases pc <;> cases hrace <;> simp only [Known] at h
  case deleteTest => exact h.1 hlost
  case destroy => exact h.1
  case deleteLoad => exact habsurd h.1
  case deleteCas => exact habsurd h.1
  case unlink => exact habsurd h.1
  case unlinkCas => exact habsurd h.1
  all_goals exact h.2

theorem Inv.handed : Handed s := by
  refine ⟨?_,?_,fun e he => (h.log e he).1,fun t r hrace => (h.known t).losing hrace⟩
  · intro n hn hdeleted
    obtain ⟨c,hc⟩ := ne_none_iff_exists'.mp (h.state n hn (by rw [hdeleted]; rfl))
    refine ⟨c,hc,fun c' => ⟨?_,?_⟩⟩
    · rintro (⟨t,rfl,htaking⟩ | ⟨e,he,rfl,hnode,hret⟩)
      · have htaken := (h.known t).taking htaking
        exact some.inj (htaken.symm.trans hc)
      · have htaking : (Pc.removed e.node e.own e.ret).taking = some (n,(s.nodes n).value) := by
          rw [hnode,hret]
          rfl
        have htaken := (h.log e he).taking htaking
        exact some.inj (htaken.symm.trans hc)
    · rintro rfl
      exact h.held n hn c' hc hdeleted
  · intro e he hown
    obtain ⟨n,hnode,hwon,hret⟩ := (h.log e he).2 hown
    obtain ⟨v,hv⟩ := isSome_iff_exists.mp hret
    exact ⟨n,hnode,hwon.taken,by rw [hv,hwon.ret v hv]⟩

end

theorem Pc.tests_some {r : Race} (h : r ∈ pc.tests) : pc = .deleteTest r := by
  cases pc with
  | deleteTest =>
    cases h
    rfl
  | _ => cases h

theorem disturbed_breaks (hstep : step cfg s a = some s') (hdisturbed : ¬ Undisturbed s a) :
    ¬ Handed s' := by
  cases a with
  | call => exact absurd trivial hdisturbed
  | tick t =>
    simp only [Undisturbed,not_forall,Decidable.not_not] at hdisturbed
    obtain ⟨r,htests,hlost,hstate⟩ := hdisturbed
    have hpc := Pc.tests_some htests
    simp only [step,tick,hpc,findTick,insertTick,removeTick,none_or,if_pos hstate,
      some.injEq] at hstep
    subst hstep
    intro hhanded
    have hnone := hhanded.losing t { r with ret := some (s.nodes r.node).value }
      (by rw [goto_pc]; rfl) hlost
    cases hnone

theorem init_inv (cfg : Config) (junk : Nat → List Nat) : Inv (init cfg junk) := by
  refine ⟨⟨le_refl 2,?_,?_⟩,?_,?_,fun t => trivial,?_,?_⟩
  · intro n hn m hm
    change m ∈ (sentinel cfg junk n).next.ref at hm
    rw [sentinel] at hm
    split at hm
    · cases hm
      exact Nat.one_lt_two
    · cases hm
  · intro t n hn
    cases hn
  · intro n c hc
    cases hc
  · intro n hn hstaying
    change (sentinel cfg junk n).next.state.staying = false at hstaying
    rw [sentinel] at hstaying
    split at hstaying
    · cases hstaying
    · cases hstaying
  · intro e he
    cases he
  · intro n hn c hc
    cases hc

/-- In every run, the removed nodes are handed out as they should after every step, if and only if
no call that has lost the race for its node finds it in `INTEND_TO_DELETE` afterwards. -/
theorem handed_iff_undisturbed (cfg : Config) (junk : Nat → List Nat) (ms : List (Move State Act))
    (s : State) (run : Run (step cfg) (fun _ _ => True) (init cfg junk) ms s) :
    (∀ m ∈ ms, Handed m.post) ↔ ∀ m ∈ ms, Undisturbed m.pre m.act := by
  refine run.good_iff Inv Handed Undisturbed (init_inv cfg junk) ?_ ?_
  · intro s a s' h hundisturbed hstep
    have h' := step_inv h hundisturbed hstep
    exact ⟨h',h'.handed⟩
  · intro s a s' h hdisturbed hstep
    exact disturbed_breaks hstep hdisturbed

def bothFind : List Act :=
  [.call 0 (.insert [97] [5] [] [])] ++ replicate 8 (.tick 0) ++ [.call 1 (.remove [97])] ++
    replicate 2 (.tick 1) ++ [.call 2 (.remove [97])] ++ replicate 2 (.tick 2)

theorem handed_iff_undisturbed_after :
    ∃ ms s, Run (step ⟨4,4⟩) (fun _ _ => True) (init ⟨4,4⟩ fun _ => []) ms s ∧
      s.log = [⟨(1,1),some 2,true,some [5,0,0,0]⟩,⟨(2,1),some 2,false,none⟩] ∧
      ∀ m ∈ ms, Handed m.post := by
  -- the first removes the node before the second one goes on
  obtain ⟨ms,s,run,hlog⟩ := Run.play (step ⟨4,4⟩) (fun s a => decide (Undisturbed s a))
    (fun s => decide (s.log = [⟨(1,1),some 2,true,some [5,0,0,0]⟩,⟨(2,1),some 2,false,none⟩]))
    (init ⟨4,4⟩ fun _ => []) (bothFind ++ replicate 11 (.tick 1) ++ replicate 4 (.tick 2))
    (by decide +kernel)
  have hrun : Run (step ⟨4,4⟩) (fun _ _ => True) (init ⟨4,4⟩ fun _ => []) ms s :=
    run.weaken fun _ _ _ => trivial
  refine ⟨ms,s,hrun,of_decide_eq_true hlog,(handed_iff_undisturbed _ _ ms s hrun).mpr ?_⟩
  intro m hm
  exact of_decide_eq_true (run.each (fun _ => True) trivial (fun _ _ _ _ _ _ => trivial) m hm).2.1

def bothTake : List Act :=
  bothFind ++ replicate 4 (.tick 1) ++ replicate 3 (.tick 2) ++
    replicate 7 (.tick 1) ++ replicate 4 (.tick 2)

/-- Both return the value. -/
theorem handed_twice :
    ∃ ms s, Run (step ⟨4,4⟩) (fun _ _ => True) (init ⟨4,4⟩ fun _ => []) ms s ∧
      ms.map Move.act = bothTake ∧ (s.next 2).state = .deleted ∧
      s.log = [⟨(1,1),some 2,true,some [5,0,0,0]⟩,⟨(2,1),some 2,false,some [5,0,0,0]⟩] := by
  obtain ⟨s,hplay,h⟩ : ∃ s, play (step ⟨4,4⟩) (init ⟨4,4⟩ fun _ => []) bothTake = some s ∧
      ((s.next 2).state,s.log) =
        (.deleted,[⟨(1,1),some 2,true,some [5,0,0,0]⟩,⟨(2,1),some 2,false,some [5,0,0,0]⟩]) :=
    map_eq_some_iff.mp (by decide +kernel)
  obtain ⟨ms,run,hacts⟩ := Run.performed (fun _ _ => True) hplay fun _ _ _ => trivial
  exact ⟨ms,s,run,hacts,congrArg Prod.fst h,congrArg Prod.snd h⟩

end Montage.SOFTHashTable
