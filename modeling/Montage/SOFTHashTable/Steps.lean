import Montage.SOFTHashTable.Model

namespace Montage.SOFTHashTable
open Library Function List

def Pc.refs : Pc → List Nat
  | .walk _ prev _ curr => [prev,curr]
  | .trim _ prev _ curr succ => prev :: curr :: succ.toList
  | .trimCas _ prev _ curr succ trimmed => prev :: curr :: (succ.toList ++ trimmed.toList)
  | .getWalk _ curr => [curr]
  | .link _ _ _ _ pred _ curr => [pred,curr]
  | .insertTest node _ | .insertLoad node _ => [node]
  | .insertCas node _ p => node :: p.toList
  | .removeTest r | .removeLoad r | .destroy r | .deleteTest r | .deleteLoad r | .unlink r =>
    [r.pred,r.node]
  | .removeCas r p | .deleteCas r p | .unlinkCas r p => r.pred :: r.node :: p.toList
  | _ => []

structure Closed (s : State) : Prop where
  sentinels : 2 ≤ s.made
  next : ∀ n < s.made, ∀ m ∈ (s.next n).ref, m < s.made
  pcs : ∀ t, ∀ n ∈ (s.pc t).refs, n < s.made

def NodeState.staying : NodeState → Bool
  | .inserted | .intendToInsert => true
  | _ => false

/-- The nodes that are being removed stay as they are, and no others join them. -/
structure Plain (s s' : State) : Prop where
  made : s.made ≤ s'.made
  value : ∀ n < s.made, (s'.nodes n).value = (s.nodes n).value
  taken : s'.taken = s.taken
  state : ∀ n < s.made, (s'.next n).state = (s.next n).state ∨
    (s.next n).state.staying = true ∧ (s'.next n).state.staying = true
  fresh : ∀ n < s'.made, s.made ≤ n → (s'.next n).state.staying = true

structure Quiet (s s' : State) (t : Nat) : Prop where
  plain : Plain s s'
  closed : Closed s'
  others : ∀ u, u ≠ t → s'.pc u = s.pc u
  calls : s'.calls = s.calls
  log : s'.log = s.log

variable {cfg : Config} {s s' : State} {t n : Nat} {r : Ref} {pc : Pc}

theorem setNext_nodes (s : State) (n : Nat) (r : Ref) (m : Nat) :
    (s.setNext n r).nodes m = if m = n then { s.nodes n with next := r } else s.nodes m :=
  update_apply ..

theorem setNext_next (s : State) (n : Nat) (r : Ref) (m : Nat) :
    (s.setNext n r).next m = if m = n then r else s.next m := by
  rw [State.next,setNext_nodes]
  split
  · rfl
  · rfl

theorem setNext_value (s : State) (n : Nat) (r : Ref) (m : Nat) :
    ((s.setNext n r).nodes m).value = (s.nodes m).value := by
  rw [setNext_nodes]
  split
  next heq => rw [heq]
  next => rfl

theorem newNode_nodes (s : State) (node : Node) (m : Nat) :
    (s.newNode node).nodes m = if m = s.made then node else s.nodes m :=
  update_apply ..

theorem goto_pc (s : State) (t : Nat) (pc : Pc) : (s.goto t pc).pc t = pc := update_self ..

theorem goto_others (s : State) (t : Nat) (pc : Pc) : ∀ u, u ≠ t → (s.goto t pc).pc u = s.pc u :=
  fun _ hu => update_of_ne hu ..

theorem Closed.goto (h : Closed s) (hpc : ∀ m ∈ pc.refs, m < s.made) : Closed (s.goto t pc) := by
  refine ⟨h.sentinels,h.next,?_⟩
  intro u m hm
  by_cases hu : u = t
  · subst hu
    rw [goto_pc] at hm
    exact hpc m hm
  · rw [goto_others s t pc u hu] at hm
    exact h.pcs u m hm

theorem Closed.setNext (h : Closed s) (hr : ∀ m ∈ r.ref, m < s.made) : Closed (s.setNext n r) := by
  refine ⟨h.sentinels,?_,h.pcs⟩
  intro m hm k hk
  rw [setNext_next] at hk
  split at hk
  · exact hr k hk
  · exact h.next m hm k hk

theorem Closed.newNode {node : Node} (h : Closed s) (hnode : ∀ m ∈ node.next.ref, m < s.made) :
    Closed (s.newNode node) := by
  refine ⟨Nat.le_succ_of_le h.sentinels,?_,?_⟩
  · intro m hm k hk
    rw [State.next,newNode_nodes] at hk
    refine Nat.lt_succ_of_lt ?_
    split at hk
    · exact hnode k hk
    next hne => exact h.next m (lt_of_le_of_ne (Nat.le_of_lt_succ hm) hne) k hk
  · intro u m hm
    exact Nat.lt_succ_of_lt (h.pcs u m hm)

theorem Plain.refl (s : State) : Plain s s :=
  ⟨le_rfl,fun _ _ => rfl,rfl,fun _ _ => .inl rfl,fun _ h h' => absurd h (not_lt.mpr h')⟩

theorem Plain.state_eq (h : Plain s s') (hn : n < s.made)
    (hor : (s.next n).state.staying = false ∨ (s'.next n).state.staying = false) :
    (s'.next n).state = (s.next n).state := by
  rcases h.state n hn with heq | ⟨hs,hs'⟩
  · exact heq
  · rw [hs,hs'] at hor
    cases hor with
    | inl h | inr h => cases h

theorem Plain.goto (h : Plain s s') : Plain s (s'.goto t pc) :=
  ⟨h.made,h.value,h.taken,h.state,h.fresh⟩

theorem setNext_plain (h : r.state = (s.next n).state ∨
    (s.next n).state.staying = true ∧ r.state.staying = true) : Plain s (s.setNext n r) := by
  refine ⟨le_rfl,fun m _ => setNext_value s n r m,rfl,?_,
    fun _ h h' => absurd h (not_lt.mpr h')⟩
  intro m _
  rw [setNext_next]
  split
  next heq =>
    rw [heq]
    exact h
  next => exact .inl rfl

theorem goto_quiet (h : Closed s) (hpc : ∀ m ∈ pc.refs, m < s.made) : Quiet s (s.goto t pc) t :=
  ⟨(Plain.refl s).goto,h.goto hpc,goto_others s t pc,rfl,rfl⟩

theorem cas_quiet {expected : Ref} (h : Closed s) (hr : ∀ m ∈ r.ref, m < s.made)
    (hstate : r.state = expected.state ∨ expected.state.staying = true ∧ r.state.staying = true)
    (hpc : ∀ m ∈ pc.refs, m < s.made) : Quiet s ((s.cas n expected r).goto t pc) t := by
  rw [State.cas]
  split
  next heq =>
    refine ⟨(setNext_plain ?_).goto,(h.setNext hr).goto hpc,goto_others _ t pc,rfl,rfl⟩
    rw [heq]
    exact hstate
  next => exact goto_quiet h hpc

theorem link_quiet {node : Node} {pred curr : Nat} {predState : NodeState} {result : Bool}
    (h : Closed s) (hnode : node.next = ⟨some curr,.intendToInsert⟩) (hcurr : curr < s.made)
    (hpred : pred < s.made) (hnext : s.next pred = ⟨some curr,predState⟩) :
    Quiet s (((s.newNode node).setNext pred ⟨some s.made,predState⟩).goto t
      (.insertTest s.made result)) t := by
  have hne : pred ≠ s.made := ne_of_lt hpred
  have hclosed : Closed (s.newNode node) := by
    refine h.newNode ?_
    rw [hnode]
    rintro m ⟨⟩
    exact hcurr
  have hlast : ∀ m ∈ some s.made, m < (s.newNode node).made := by
    rintro m ⟨⟩
    exact Nat.lt_succ_self _
  refine ⟨⟨Nat.le_succ _,?_,rfl,?_,?_⟩,(hclosed.setNext hlast).goto ?_,goto_others _ t _,rfl,rfl⟩
  · intro m hm
    refine (setNext_value _ _ _ m).trans ?_
    rw [newNode_nodes,if_neg (ne_of_lt hm)]
  · intro m hm
    refine .inl ?_
    change (((s.newNode node).setNext pred ⟨some s.made,predState⟩).next m).state = _
    rw [setNext_next]
    split
    next heq => rw [heq,hnext]
    next => rw [State.next,newNode_nodes,if_neg (ne_of_lt hm),State.next]
  · intro m hm hle
    have hm' : m = s.made := le_antisymm (Nat.le_of_lt_succ hm) hle
    change (((s.newNode node).setNext pred ⟨some s.made,predState⟩).next m).state.staying = true
    rw [setNext_next,hm',if_neg hne.symm,State.next,newNode_nodes,if_pos rfl,hnode]
    rfl
  · intro m hm
    cases mem_singleton.mp hm
    exact Nat.lt_succ_self _

def Pc.race : Pc → Option Race
  | .removeTest r | .removeLoad r | .removeCas r _ | .destroy r | .deleteTest r | .deleteLoad r
  | .deleteCas r _ | .unlink r | .unlinkCas r _ => some r
  | _ => none

def Pc.taking (pc : Pc) : Option (Nat × List Nat) :=
  match pc with
  | .removed (some n) _ (some v) => some (n,v)
  | _ => pc.race.bind fun r => r.ret.map fun v => (r.node,v)

theorem Pc.taking_of_race {r : Race} (h : pc.race = some r) :
    pc.taking = r.ret.map fun v => (r.node,v) := by
  cases pc <;> cases h
  all_goals rfl

def Pc.begins : Pc → Prop
  | .removeTest r => r.own = false ∧ r.ret = none
  | .removed _ own ret => own = false ∧ ret = none
  | pc => pc.race = none

theorem follow_refs {p : Option Nat} {k : Nat → Pc} {b : Nat} (hp : ∀ m ∈ p, m < b)
    (h : ∀ n < b, ∀ m ∈ (k n).refs, m < b) : ∀ m ∈ (follow p k).refs, m < b := by
  cases p with
  | none => exact fun m hm => (by cases hm)
  | some n => exact h n (hp n rfl)

theorem follow_begins {p : Option Nat} {k : Nat → Pc} (h : ∀ n, (k n).begins) :
    (follow p k).begins := by
  cases p with
  | none => rfl
  | some n => exact h n

theorem afterFind_refs {prev curr : Nat} {prevState currState : NodeState} {op : Op}
    (hprev : prev < s.made) (hcurr : curr < s.made) :
    ∀ m ∈ (afterFind cfg s prev prevState curr currState op).refs, m < s.made := by
  cases op <;> simp only [afterFind] <;> repeat' split
  all_goals simp [Pc.refs,hprev,hcurr]

theorem afterFind_begins {prev curr : Nat} {prevState currState : NodeState} {op : Op} :
    (afterFind cfg s prev prevState curr currState op).begins := by
  cases op <;> simp only [afterFind] <;> repeat' split
  all_goals simp [Pc.begins,Pc.race]

theorem pair_refs {a b c : Nat} (ha : a < c) (hb : b < c) : ∀ m ∈ [a,b], m < c := by
  simp [ha,hb]

theorem toList_refs {b : Nat} {p : Option Nat} : (∀ m ∈ p.toList, m < b) ↔ ∀ m ∈ p, m < b := by
  simp

structure Outside (s s' : State) (t : Nat) : Prop where
  quiet : Quiet s s' t
  begins : (s'.pc t).begins
  before : (s.pc t).taking = none

theorem findTick_outside (hclosed : Closed s) (h : findTick cfg s t (s.pc t) = some s') :
    Outside s s' t := by
  have hrefs := hclosed.pcs t
  have hhead : ∀ m ∈ (s.next 0).ref, m < s.made :=
    hclosed.next 0 (lt_of_lt_of_le (by decide) hclosed.sentinels)
  have hgo : ∀ {pc : Pc}, some (s.goto t pc) = some s' → (s.pc t).taking = none →
      (∀ m ∈ pc.refs, m < s.made) → pc.begins → Outside s s' t := by
    rintro pc ⟨⟩ hbefore hpc hbegins
    exact ⟨goto_quiet hclosed hpc,by rwa [goto_pc],hbefore⟩
  cases hpc : s.pc t <;> rw [hpc] at h hrefs hgo <;> simp only [findTick] at h
  case start op =>
    cases op with
    | get =>
      simp only at h
      split at h
      next =>
        refine hgo h rfl (follow_refs hhead ?_) (follow_begins fun _ => rfl)
        intro n hn
        simpa [Pc.refs] using hn
      next => exact hgo h rfl (by simp [Pc.refs]) rfl
    | insert | remove =>
      refine hgo h rfl (follow_refs hhead ?_) (follow_begins fun _ => rfl)
      intro n hn
      simpa [Pc.refs] using And.intro (Nat.zero_lt_of_lt hn) hn
  case walk op prev prevState curr =>
    obtain ⟨hprev,hcurr⟩ : prev < s.made ∧ curr < s.made := by simpa [Pc.refs] using hrefs
    have hsucc := hclosed.next curr hcurr
    split at h
    next =>
      split at h
      next =>
        exact hgo h rfl (afterFind_refs hprev hcurr) afterFind_begins
      next =>
        refine hgo h rfl (follow_refs hsucc ?_) (follow_begins fun _ => rfl)
        intro n hn
        simp [Pc.refs,hcurr,hn]
    next =>
      refine hgo h rfl ?_ rfl
      simp only [Pc.refs,forall_mem_cons,toList_refs]
      exact ⟨hprev,hcurr,hsucc⟩
  case trim op prev prevState curr succ =>
    simp only [Pc.refs,forall_mem_cons,toList_refs] at hrefs
    obtain ⟨hprev,hcurr,hsucc⟩ := hrefs
    refine hgo h rfl ?_ rfl
    simp only [Pc.refs,forall_mem_cons,forall_mem_append,toList_refs]
    exact ⟨hprev,hcurr,hsucc,hclosed.next curr hcurr⟩
  case trimCas op prev prevState curr succ trimmed =>
    simp only [Pc.refs,forall_mem_cons,forall_mem_append,toList_refs] at hrefs
    obtain ⟨hprev,hcurr,hsucc,htrimmed⟩ := hrefs
    cases h
    refine ⟨cas_quiet hclosed htrimmed (.inl rfl) (follow_refs hsucc ?_),?_,by rw [hpc]; rfl⟩
    · intro n hn
      simp [Pc.refs,hprev,hn]
    · rw [goto_pc]
      exact follow_begins fun _ => rfl
  case getWalk key curr =>
    have hcurr : curr < s.made := by simpa [Pc.refs] using hrefs
    split at h
    next =>
      refine hgo h rfl (follow_refs (hclosed.next curr hcurr) ?_) (follow_begins fun _ => rfl)
      intro n hn
      simpa [Pc.refs] using hn
    next =>
      split at h <;> exact hgo h rfl (by simp [Pc.refs]) rfl
  case got ret => exact hgo h rfl (by simp [Pc.refs]) rfl
  all_goals cases h

theorem insertTick_outside (hclosed : Closed s) (h : insertTick cfg s t (s.pc t) = some s') :
    Outside s s' t := by
  have hrefs := hclosed.pcs t
  have hgo : ∀ {pc : Pc}, some (s.goto t pc) = some s' → (s.pc t).taking = none →
      (∀ m ∈ pc.refs, m < s.made) → pc.begins → Outside s s' t := by
    rintro pc ⟨⟩ hbefore hpc hbegins
    exact ⟨goto_quiet hclosed hpc,by rwa [goto_pc],hbefore⟩
  cases hpc : s.pc t <;> rw [hpc] at h hrefs hgo <;> simp only [insertTick] at h
  case link key value keyJunk valueJunk pred predState curr =>
    obtain ⟨hpred,hcurr⟩ : pred < s.made ∧ curr < s.made := by simpa [Pc.refs] using hrefs
    split at h
    next =>
      split at h
      next hnext =>
        cases h
        exact ⟨link_quiet hclosed rfl hcurr hpred hnext,by rw [goto_pc]; rfl,by rw [hpc]; rfl⟩
      next => exact hgo h rfl (by simp [Pc.refs]) rfl
    next => exact hgo h rfl (by simp [Pc.refs]) rfl
  case insertTest node result =>
    have hnode : node < s.made := by simpa [Pc.refs] using hrefs
    split at h
    next => exact hgo h rfl (by simpa [Pc.refs] using hnode) rfl
    next => exact hgo h rfl (by simp [Pc.refs]) rfl
  case insertLoad node result =>
    have hnode : node < s.made := by simpa [Pc.refs] using hrefs
    refine hgo h rfl ?_ rfl
    simp only [Pc.refs,forall_mem_cons,toList_refs]
    exact ⟨hnode,hclosed.next node hnode⟩
  case insertCas node result p =>
    simp only [Pc.refs,forall_mem_cons,toList_refs] at hrefs
    obtain ⟨hnode,hp⟩ := hrefs
    cases h
    refine ⟨cas_quiet hclosed hp (.inr ⟨rfl,rfl⟩) ?_,by rw [goto_pc]; rfl,by rw [hpc]; rfl⟩
    simpa [Pc.refs] using hnode
  case inserted result => exact hgo h rfl (by simp [Pc.refs]) rfl
  all_goals cases h

end Montage.SOFTHashTable
