import Montage.SOFTHashTable.Sequential

namespace Montage.SOFTHashTable
open Library Function List

variable {cfg : Config} {s s' : State} {ids ids1 ids2 : List Nat} {L : Bucket} {key : List Nat}
  {n prev curr : Nat} {pc : Pc} {op : Op}

@[simp] theorem goto_next (s : State) (t : Nat) (pc : Pc) (n : Nat) :
    (s.goto t pc).next n = s.next n := rfl

@[simp] theorem goto_nodes (s : State) (t : Nat) (pc : Pc) : (s.goto t pc).nodes = s.nodes := rfl

@[simp] theorem goto_made (s : State) (t : Nat) (pc : Pc) : (s.goto t pc).made = s.made := rfl

theorem tick_of_find (h : findTick cfg (s.goto 0 pc) 0 pc = some s') :
    tick cfg (s.goto 0 pc) 0 = some s' := by
  rw [tick,goto_pc,h]
  rfl

theorem tick_of_insert (hfind : findTick cfg (s.goto 0 pc) 0 pc = none)
    (h : insertTick cfg (s.goto 0 pc) 0 pc = some s') : tick cfg (s.goto 0 pc) 0 = some s' := by
  rw [tick,goto_pc,hfind,h]
  rfl

theorem tick_of_remove (hfind : findTick cfg (s.goto 0 pc) 0 pc = none)
    (hinsert : insertTick cfg (s.goto 0 pc) 0 pc = none)
    (h : removeTick (s.goto 0 pc) 0 pc = some s') : tick cfg (s.goto 0 pc) 0 = some s' := by
  rw [tick,goto_pc,hfind,hinsert,h]
  rfl

structure Arrived (cfg : Config) (s : State) (ids : List Nat) (L : Bucket) (key : List Nat)
    (ids1 ids2 : List Nat) (prev curr : Nat) : Prop where
  ids : ids = ids1 ++ ids2
  spot : Spot ids1 ids2 prev curr
  before : Forall₂ (Stored cfg s) ids1 (L.before key)
  after : Forall₂ (Stored cfg s) ids2 (L.after key)

theorem Arrived.compare (h : Arrived cfg s ids L key ids1 ids2 prev curr) (hholds : Holds cfg s ids L)
    (hkey : ValidKey cfg key) :
    (L.find key = none ∧ (s.nodes curr).compare cfg key = .gt) ∨
      ∃ e ids2', L.find key = some e ∧ (s.nodes curr).compare cfg key = .eq ∧
        ids2 = curr :: ids2' ∧ Stored cfg s curr e := by
  obtain ⟨l,hl⟩ := h.spot.curr
  have hafter := h.after
  cases hafterL : L.after key with
  | nil =>
    rw [hafterL] at hafter
    cases hafter
    cases hl
    refine .inl ⟨?_,compare_last hholds.last hkey⟩
    rw [Bucket.find,hafterL]
    rfl
  | cons e M =>
    rw [hafterL] at hafter
    cases hafter with
    | @cons c _ ids2' _ hc hrest =>
      cases hl
      obtain ⟨hlt,heq⟩ := compare_stored hc hkey
      have hnot : ¬ e.1 < key :=
        hholds.sorted.after_not_lt (by rw [hafterL]; exact mem_cons_self)
      by_cases hbegins : key <+: e.1
      · exact .inr ⟨e,ids2',Bucket.find_eq_some.mpr ⟨M,hafterL,hbegins⟩,heq.mpr hbegins,rfl,hc⟩
      · refine .inl ⟨?_,?_⟩
        · rw [Bucket.find,hafterL,head?_cons,Option.filter_some,if_neg (by simpa using hbegins)]
        · cases hcompare : (s.nodes curr).compare cfg key with
          | lt => exact absurd (hlt.mp hcompare) hnot
          | eq => exact absurd (heq.mp hcompare) hbegins
          | gt => rfl

theorem arrive (op : Op) (place : Nat → Nat → Pc)
    (hrunning : ∀ prev curr, (place prev curr).result = none)
    (hmove : ∀ prev curr next, s.next curr = ⟨some next,.inserted⟩ →
      (s.nodes curr).compare cfg key = .lt →
      tick cfg (s.goto 0 (place prev curr)) 0 = some (s.goto 0 (place curr next)))
    (hstart : ∀ curr, s.next 0 = ⟨some curr,.inserted⟩ →
      tick cfg (s.goto 0 (.start op)) 0 = some (s.goto 0 (place 0 curr)))
    (hkey : ValidKey cfg key) (h : Holds cfg s ids L) :
    ∃ n prev curr ids1 ids2, Arrived cfg s ids L key ids1 ids2 prev curr ∧
      Ticks cfg n (s.goto 0 (.start op)) (s.goto 0 (place prev curr)) := by
  obtain ⟨curr,l,hl⟩ : ∃ curr l, ids ++ [1] = curr :: l := exists_cons_of_ne_nil (by simp)
  have hspot : Spot [] ids 0 curr := ⟨⟨[],rfl⟩,l,hl⟩
  obtain ⟨n,prev',curr',ids1,ids2,hids,hspot',hst1,hst2,hticks⟩ :=
    walk_ticks place hrunning hmove hkey h rfl .nil h.stored hspot
  refine ⟨1 + n,prev',curr',ids1,ids2,⟨hids,hspot',hst1,hst2⟩,(Ticks.one ?_ ?_).trans hticks⟩
  · rw [goto_pc]
    rfl
  · exact hstart curr (h.next_spot rfl hspot)

theorem find_arrives (op : Op) (hget : ∀ key, op ≠ .get key) (hkey : ValidKey cfg op.key)
    (h : Holds cfg s ids L) :
    ∃ n prev curr ids1 ids2, Arrived cfg s ids L op.key ids1 ids2 prev curr ∧
      Ticks cfg n (s.goto 0 (.start op)) (s.goto 0 (.walk op prev .inserted curr)) := by
  refine arrive op (fun prev curr => .walk op prev .inserted curr) (fun _ _ => rfl) ?_ ?_ hkey h
  · intro prev curr next hnext hlt
    exact tick_of_find (by simp [findTick,hlt,hnext,follow,goto_goto])
  · intro curr hnext
    refine tick_of_find ?_
    cases op with
    | get key => exact absurd rfl (hget key)
    | insert | remove => simp [findTick,hnext,follow,goto_goto]

theorem find_ends (op : Op) (prev : Nat) (hnot : (s.nodes curr).compare cfg op.key ≠ .lt)
    (hstate : (s.next curr).state = .inserted) :
    Ticks cfg 1 (s.goto 0 (.walk op prev .inserted curr))
      (s.goto 0 (afterFind cfg s prev .inserted curr .inserted op)) := by
  refine .one ?_ (tick_of_find ?_)
  · rw [goto_pc]
    rfl
  · simp only [findTick,goto_next,goto_nodes,hstate,goto_goto,ne_eq,hnot,not_false_eq_true,if_true,
      reduceCtorEq]
    cases op <;> rfl

theorem Arrived.state (h : Arrived cfg s ids L key ids1 ids2 prev curr) (hholds : Holds cfg s ids L) :
    (s.next curr).state = .inserted := by
  obtain ⟨l,hl⟩ := h.spot.curr
  refine hholds.state curr ?_
  rw [h.ids,append_assoc,hl]
  simp

theorem get_completes (h : Holds cfg s ids L) (hkey : ValidKey cfg key) :
    ∃ n, ∀ fuel > n, finish cfg fuel (s.goto 0 (.start (.get key))) =
      some (s.goto 0 .idle,.got ((L.find key).map Prod.snd)) := by
  obtain ⟨n,prev,curr,ids1,ids2,harrived,hticks⟩ := arrive (.get key)
    (fun _ curr => .getWalk key curr) (fun _ _ => rfl)
    (fun prev curr next hnext hlt => tick_of_find (by simp [findTick,hlt,hnext,follow,goto_goto]))
    (fun curr hnext => tick_of_find (by simp [findTick,hnext,follow,goto_goto])) hkey h
  have hreturn : ∀ v, tick cfg (s.goto 0 (.got v)) 0 = some (s.goto 0 .idle) :=
    fun v => tick_of_find (by simp [findTick,goto_goto])
  refine ⟨n + 1,?_⟩
  intro fuel hfuel
  rcases harrived.compare h hkey with ⟨hfind,hgt⟩ | ⟨e,ids2',hfind,heq,hids2,hstored⟩
  · rw [hfind]
    refine (hticks.trans (.one ?_ ?_)).completes ?_ (hreturn none) hfuel
    · rw [goto_pc]
      rfl
    · exact tick_of_find (by simp [findTick,hgt,goto_goto])
    · rw [goto_pc]
      rfl
  · rw [hfind]
    have hstate := harrived.state h
    refine (hticks.trans (.one ?_ ?_)).completes ?_ (hreturn (some e.2)) hfuel
    · rw [goto_pc]
      rfl
    · exact tick_of_find (by simp [findTick,heq,hstate,hstored.value,goto_goto])
    · rw [goto_pc]
      rfl

theorem setNext_same (s : State) (n : Nat) (r : Ref) (m : Nat) :
    ((s.setNext n r).nodes m).key = (s.nodes m).key ∧
      ((s.setNext n r).nodes m).value = (s.nodes m).value ∧
      ((s.setNext n r).nodes m).pptr = (s.nodes m).pptr := by
  rw [setNext_nodes]
  split
  next heq =>
    rw [heq]
    exact ⟨rfl,rfl,rfl⟩
  next => exact ⟨rfl,rfl,rfl⟩

theorem Stored.of_same {e : List Nat × List Nat} (h : Stored cfg s n e)
    (hsame : (s'.nodes n).key = (s.nodes n).key ∧ (s'.nodes n).value = (s.nodes n).value ∧
      (s'.nodes n).pptr = (s.nodes n).pptr) : Stored cfg s' n e := by
  obtain ⟨hkey,hvalue,hpptr⟩ := hsame
  refine ⟨?_,hvalue.trans h.value,hpptr.trans h.pptr,h.valid⟩
  rw [hkey]
  exact h.key

theorem stored_of_same (h : Forall₂ (Stored cfg s) ids L)
    (hsame : ∀ m ∈ ids, (s'.nodes m).key = (s.nodes m).key ∧
      (s'.nodes m).value = (s.nodes m).value ∧ (s'.nodes m).pptr = (s.nodes m).pptr) :
    Forall₂ (Stored cfg s') ids L := by
  induction h with
  | nil => exact .nil
  | cons hc _ ih =>
    exact .cons (hc.of_same (hsame _ mem_cons_self))
      (ih fun m hm => hsame m (mem_cons_of_mem _ hm))

theorem Ticks.and_then {s0 : State} (s' : State) (h : Ticks cfg n s0 (s.goto 0 pc))
    (hrunning : pc.result = none)
    (htick : tick cfg (s.goto 0 pc) 0 = some s') : Ticks cfg (n + 1) s0 s' :=
  h.trans (.one (by rw [goto_pc]; exact hrunning) htick)

theorem Arrived.nodes (h : Arrived cfg s ids L key ids1 ids2 prev curr) :
    ∃ l l', 0 :: ids1 = l ++ [prev] ∧ ids2 ++ [1] = curr :: l' ∧
      0 :: (ids ++ [1]) = l ++ prev :: curr :: l' := by
  obtain ⟨l,hl⟩ := h.spot.prev
  obtain ⟨l',hl'⟩ := h.spot.curr
  refine ⟨l,l',hl,hl',?_⟩
  rw [h.ids,append_assoc,hl',← cons_append,hl]
  simp

def linked (s : State) (node : Node) (prev curr : Nat) : State :=
  ((s.newNode node).setNext prev ⟨some s.made,.inserted⟩).setNext s.made ⟨some curr,.inserted⟩

theorem linked_next (s : State) (node : Node) (prev curr m : Nat) :
    (linked s node prev curr).next m = if m = s.made then ⟨some curr,.inserted⟩
      else if m = prev then ⟨some s.made,.inserted⟩ else s.next m := by
  rw [linked,setNext_next,setNext_next]
  split
  next => rfl
  next hne =>
    split
    next => rfl
    next => rw [State.next,newNode_nodes,if_neg hne,State.next]

theorem linked_fields (s : State) (node : Node) (prev curr m : Nat) :
    ((linked s node prev curr).nodes m).key = ((s.newNode node).nodes m).key ∧
      ((linked s node prev curr).nodes m).value = ((s.newNode node).nodes m).value ∧
      ((linked s node prev curr).nodes m).pptr = ((s.newNode node).nodes m).pptr := by
  have h1 := setNext_same (s.newNode node) prev ⟨some s.made,.inserted⟩ m
  have h2 := setNext_same ((s.newNode node).setNext prev ⟨some s.made,.inserted⟩) s.made
    ⟨some curr,.inserted⟩ m
  exact ⟨h2.1.trans h1.1,h2.2.1.trans h1.2.1,h2.2.2.trans h1.2.2⟩

theorem linked_same (s : State) (node : Node) (prev curr : Nat) {m : Nat} (hm : m ≠ s.made) :
    ((linked s node prev curr).nodes m).key = (s.nodes m).key ∧
      ((linked s node prev curr).nodes m).value = (s.nodes m).value ∧
      ((linked s node prev curr).nodes m).pptr = (s.nodes m).pptr := by
  have h := linked_fields s node prev curr m
  rwa [newNode_nodes,if_neg hm] at h

theorem Holds.link {keyJunk : List Nat} (node : Node) (h : Holds cfg s ids L)
    (ha : Arrived cfg s ids L key ids1 ids2 prev curr) (hkey : ValidKey cfg key)
    (hfind : L.find key = none) (hnode : node.key = fill cfg.keySize key keyJunk)
    (hpptr : node.pptr = true) :
    Holds cfg (linked s node prev curr) (ids1 ++ s.made :: ids2)
      (L.before key ++ (key,node.value) :: L.after key) := by
  obtain ⟨l,l',hl,hl',hids⟩ := ha.nodes
  have hmade : ∀ m ∈ l ++ prev :: curr :: l', m < s.made := by
    rw [← hids]
    exact h.made
  have hstate : ∀ m ∈ l ++ prev :: curr :: l', (s.next m).state = .inserted := by
    rw [← hids]
    exact h.state
  have hchain := h.chain
  rw [hids] at hchain
  have hprev : (s.next prev).ref = some curr := hchain.split.first
  have hprevNe : prev ≠ s.made := ne_of_lt (hmade prev (by simp))
  have hlist : 0 :: ((ids1 ++ s.made :: ids2) ++ [1]) = l ++ prev :: s.made :: curr :: l' := by
    rw [append_assoc,cons_append,hl',← cons_append,hl]
    simp
  have hold : ∀ m ∈ ids1 ++ ids2, m ≠ s.made := by
    intro m hm
    refine ne_of_lt (h.made m ?_)
    rw [ha.ids]
    exact mem_cons_of_mem 0 (mem_append_left _ hm)
  rw [← cons_append] at hlist
  constructor
  case chain =>
    rw [← cons_append,hlist]
    refine hchain.insert_after ?_ ?_ ?_
    · simp [linked_next,hprevNe]
    · simp [linked_next,hprev]
    · intro c hc
      have hne : c ≠ prev := hchain.others c hc
      have hlt : c ≠ s.made := by
        refine ne_of_lt (hmade c ?_)
        simp only [mem_append,mem_cons] at hc ⊢
        tauto
      simp [linked_next,hne,hlt]
  case state =>
    rw [← cons_append,hlist]
    intro m hm
    rw [linked_next]
    split
    next => rfl
    next =>
      split
      next => rfl
      next =>
        refine hstate m ?_
        simp only [mem_append,mem_cons] at hm ⊢
        tauto
  case made =>
    rw [← cons_append,hlist]
    intro m hm
    change m < s.made + 1
    by_cases heq : m = s.made
    · omega
    · refine Nat.lt_succ_of_lt (hmade m ?_)
      simp only [mem_append,mem_cons] at hm ⊢
      tauto
  case last =>
    rw [(linked_same s node prev curr (ne_of_lt (h.made 1 (by simp)))).1]
    exact h.last
  case stored =>
    have hnew := linked_fields s node prev curr s.made
    rw [newNode_nodes,if_pos rfl] at hnew
    obtain ⟨hnewKey,hnewValue,hnewPptr⟩ := hnew
    refine rel_append (stored_of_same ha.before ?_)
      (.cons ⟨⟨keyJunk,hnewKey.trans hnode⟩,hnewValue,hnewPptr.trans hpptr,hkey⟩
        (stored_of_same ha.after ?_))
    · exact fun m hm => linked_same s node prev curr (hold m (mem_append_left _ hm))
    · exact fun m hm => linked_same s node prev curr (hold m (mem_append_right _ hm))
  case sorted => exact h.sorted.insert hfind

section
variable (h : Holds cfg s ids L)
include h

theorem insert_ticks {value keyJunk valueJunk : List Nat}
    (ha : Arrived cfg s ids L key ids1 ids2 prev curr) (hkey : ValidKey cfg key)
    (hvalue : value.length ≤ cfg.valueSize) :
    Ticks cfg 5 (s.goto 0 (.link key value keyJunk valueJunk prev .inserted curr))
      ((linked s ⟨fill cfg.keySize key keyJunk,fill cfg.valueSize value valueJunk,true,some curr,
        .intendToInsert⟩ prev curr).goto 0 (.inserted true)) := by
  obtain ⟨l,l',-,-,hids⟩ := ha.nodes
  have hnext : s.next prev = ⟨some curr,.inserted⟩ := h.next l l' hids
  have hprev : prev ≠ s.made := by
    refine ne_of_lt (h.made prev ?_)
    rw [hids]
    simp
  have hsizes : key.length ≤ cfg.keySize ∧ value.length ≤ cfg.valueSize := ⟨hkey.fits.length,hvalue⟩
  generalize hnode : (⟨fill cfg.keySize key keyJunk,fill cfg.valueSize value valueJunk,true,some curr,
    .intendToInsert⟩ : Node) = node
  have hnew : ((s.newNode node).setNext prev ⟨some s.made,.inserted⟩).next s.made =
      ⟨some curr,.intendToInsert⟩ := by
    rw [setNext_next,if_neg hprev.symm,State.next,newNode_nodes,if_pos rfl,← hnode]
  have hlast : (linked s node prev curr).next s.made = ⟨some curr,.inserted⟩ := by
    rw [linked_next,if_pos rfl]
  have h1 : Ticks cfg 1 (s.goto 0 (.link key value keyJunk valueJunk prev .inserted curr))
      (((s.newNode node).setNext prev ⟨some s.made,.inserted⟩).goto 0 (.insertTest s.made true)) := by
    refine .one (by rw [goto_pc]; rfl) (tick_of_insert rfl ?_)
    rw [insertTick,if_pos hsizes,goto_next,if_pos hnext,goto_made,hnode]
    exact congrArg some (goto_goto ((s.newNode node).setNext prev ⟨some s.made,.inserted⟩) 0 _ _)
  generalize hs : (s.newNode node).setNext prev ⟨some s.made,.inserted⟩ = s1 at h1 hnew
  have hlinked : s1.setNext s.made ⟨some curr,.inserted⟩ = linked s node prev curr := by
    rw [← hs,linked]
  have h2 := h1.and_then (s1.goto 0 (.insertLoad s.made true)) rfl
    (tick_of_insert rfl (by simp [insertTick,hnew,goto_goto]))
  have h3 := h2.and_then (s1.goto 0 (.insertCas s.made true (some curr))) rfl
    (tick_of_insert rfl (by simp [insertTick,hnew,goto_goto]))
  have h4 := h3.and_then ((linked s node prev curr).goto 0 (.insertTest s.made true)) rfl
    (tick_of_insert rfl (by
      rw [insertTick,State.cas,goto_next,if_pos hnew,← hlinked]
      exact congrArg some (goto_goto (s1.setNext s.made ⟨some curr,.inserted⟩) 0 _ _)))
  exact h4.and_then _ rfl (tick_of_insert rfl (by simp [insertTick,hlast,goto_goto]))

def unlinked (s : State) (prev curr : Nat) (p : Option Nat) : State :=
  ((s.setNext curr ⟨p,.intendToDelete⟩).setNext curr ⟨p,.deleted⟩).setNext prev ⟨p,.inserted⟩

omit h in
theorem unlinked_next (s : State) (prev curr : Nat) (p : Option Nat) (m : Nat) :
    (unlinked s prev curr p).next m = if m = prev then ⟨p,.inserted⟩
      else if m = curr then ⟨p,.deleted⟩ else s.next m := by
  rw [unlinked,setNext_next,setNext_next,setNext_next]
  split
  next => rfl
  next =>
    split
    next => rfl
    next => rfl

omit h in
theorem unlinked_same (s : State) (prev curr : Nat) (p : Option Nat) (m : Nat) :
    ((unlinked s prev curr p).nodes m).key = (s.nodes m).key ∧
      ((unlinked s prev curr p).nodes m).value = (s.nodes m).value ∧
      ((unlinked s prev curr p).nodes m).pptr = (s.nodes m).pptr := by
  have h1 := setNext_same s curr ⟨p,.intendToDelete⟩ m
  have h2 := setNext_same (s.setNext curr ⟨p,.intendToDelete⟩) curr ⟨p,.deleted⟩ m
  have h3 := setNext_same ((s.setNext curr ⟨p,.intendToDelete⟩).setNext curr ⟨p,.deleted⟩) prev
    ⟨p,.inserted⟩ m
  exact ⟨h3.1.trans (h2.1.trans h1.1),h3.2.1.trans (h2.2.1.trans h1.2.1),
    h3.2.2.trans (h2.2.2.trans h1.2.2)⟩

theorem Holds.unlink (ha : Arrived cfg s ids L key ids1 (curr :: ids2) prev curr) :
    Holds cfg (unlinked s prev curr (s.next curr).ref) (ids1 ++ ids2)
      (L.before key ++ (L.after key).tail) := by
  obtain ⟨l,l',hl,hl',hids⟩ := ha.nodes
  obtain rfl : ids2 ++ [1] = l' := (cons.inj hl').2
  have hmade : ∀ m ∈ l ++ prev :: curr :: (ids2 ++ [1]), m < s.made := by
    rw [← hids]
    exact h.made
  have hstate : ∀ m ∈ l ++ prev :: curr :: (ids2 ++ [1]), (s.next m).state = .inserted := by
    rw [← hids]
    exact h.state
  have hchain := h.chain
  rw [hids] at hchain
  have hlist : 0 :: ((ids1 ++ ids2) ++ [1]) = l ++ prev :: (ids2 ++ [1]) := by
    rw [append_assoc,← cons_append,hl]
    simp
  have hcurr : ∀ m ∈ l ++ prev :: (ids2 ++ [1]), m ≠ curr := by
    intro m hm
    have hchain' : Chain (fun n => (s.next n).ref) (some 0) ((l ++ [prev]) ++ curr :: (ids2 ++ [1])) := by
      rw [← append_cons]
      exact hchain
    refine hchain'.others m ?_
    simp only [mem_append,mem_cons] at hm ⊢
    tauto
  constructor
  case chain =>
    rw [hlist]
    refine hchain.remove_after ?_ ?_
    · simp [unlinked_next]
    · intro c hc
      have hne : c ≠ prev := by
        refine hchain.others c ?_
        simp only [mem_append,mem_cons] at hc ⊢
        tauto
      have hne' : c ≠ curr := by
        refine hcurr c ?_
        simp only [mem_append,mem_cons] at hc ⊢
        tauto
      simp [unlinked_next,hne,hne']
  case state =>
    rw [hlist]
    intro m hm
    rw [unlinked_next]
    split
    next => rfl
    next =>
      rw [if_neg (hcurr m hm)]
      refine hstate m ?_
      simp only [mem_append,mem_cons] at hm ⊢
      tauto
  case made =>
    rw [hlist]
    intro m hm
    refine hmade m ?_
    simp only [mem_append,mem_cons] at hm ⊢
    tauto
  case last =>
    rw [(unlinked_same s prev curr _ 1).1]
    exact h.last
  case stored =>
    have hafter := ha.after
    cases hL : L.after key with
    | nil =>
      rw [hL] at hafter
      cases hafter
    | cons =>
      rw [hL] at hafter
      cases hafter with
      | cons _ hrest =>
        exact rel_append (stored_of_same ha.before fun m _ => unlinked_same s prev curr _ m)
          (stored_of_same hrest fun m _ => unlinked_same s prev curr _ m)
  case sorted => exact h.sorted.remove

/-- `_remove` of a key that is found: both transitions succeed at once, and so does `_trim`. -/
theorem remove_ticks (ha : Arrived cfg s ids L key ids1 (curr :: ids2) prev curr)
    (hpptr : (s.nodes curr).pptr = true) :
    ∃ s3 : State, Ticks cfg 10 (s.goto 0 (.removeTest ⟨prev,.inserted,curr,false,none⟩))
        (s3.goto 0 (.removed (some curr) true (some (s.nodes curr).value))) ∧
      s3.nodes = (unlinked s prev curr (s.next curr).ref).nodes ∧ s3.made = s.made := by
  obtain ⟨l,l',-,-,hids⟩ := ha.nodes
  have hprev : s.next prev = ⟨some curr,.inserted⟩ := h.next l l' hids
  have hne : prev ≠ curr := by
    have hchain := h.chain
    rw [hids] at hchain
    exact (hchain.others curr (by simp)).symm
  have hstate := ha.state h
  generalize hp : (s.next curr).ref = p
  have hcurr : s.next curr = ⟨p,.inserted⟩ := by rw [← hp,← hstate]
  -- the node is won
  have h1 : Ticks cfg 1 (s.goto 0 (.removeTest ⟨prev,.inserted,curr,false,none⟩))
      (s.goto 0 (.removeLoad ⟨prev,.inserted,curr,false,none⟩)) := by
    refine .one (by rw [goto_pc]; rfl) (tick_of_remove rfl rfl ?_)
    simp [removeTick,hcurr,goto_goto]
  have h2 := h1.and_then (s.goto 0 (.removeCas ⟨prev,.inserted,curr,false,none⟩ p)) rfl
    (tick_of_remove rfl rfl (by simp [removeTick,hcurr,goto_goto]))
  obtain ⟨s1,hs1⟩ : ∃ s1 : State, s1 = { s.setNext curr ⟨p,.intendToDelete⟩ with
      taken := update s.taken curr (some (s.call 0)) } := ⟨_,rfl⟩
  have hwon : s1.next curr = ⟨p,.intendToDelete⟩ := by
    rw [hs1]
    exact (setNext_next s curr _ curr).trans (if_pos rfl)
  have hwonPptr : (s1.nodes curr).pptr = true := by
    rw [hs1]
    exact (setNext_same s curr _ curr).2.2.trans hpptr
  have hwonValue : (s1.nodes curr).value = (s.nodes curr).value := by
    rw [hs1]
    exact setNext_value s curr _ curr
  have h3 := h2.and_then (s1.goto 0 (.destroy ⟨prev,.inserted,curr,true,none⟩)) rfl
    (tick_of_remove rfl rfl (by
      rw [removeTick,goto_next,if_pos hcurr,hs1]
      exact congrArg some (goto_goto { s.setNext curr ⟨p,.intendToDelete⟩ with
        taken := update s.taken curr (some (s.call 0)) } 0 _ _)))
  have h4 := h3.and_then (s1.goto 0 (.deleteTest ⟨prev,.inserted,curr,true,none⟩)) rfl
    (tick_of_remove rfl rfl (by simp [removeTick,hwonPptr,goto_goto]))
  -- it is deleted
  have h5 := h4.and_then
    (s1.goto 0 (.deleteLoad ⟨prev,.inserted,curr,true,some (s.nodes curr).value⟩)) rfl
    (tick_of_remove rfl rfl (by simp [removeTick,hwon,hwonValue,goto_goto]))
  have h₆ := h5.and_then
    (s1.goto 0 (.deleteCas ⟨prev,.inserted,curr,true,some (s.nodes curr).value⟩ p)) rfl
    (tick_of_remove rfl rfl (by simp [removeTick,hwon,goto_goto]))
  have hdeleted : (s1.setNext curr ⟨p,.deleted⟩).next curr = ⟨p,.deleted⟩ :=
    (setNext_next s1 curr _ curr).trans (if_pos rfl)
  have hprev' : (s1.setNext curr ⟨p,.deleted⟩).next prev = ⟨some curr,.inserted⟩ := by
    rw [setNext_next,if_neg hne,hs1]
    exact ((setNext_next s curr _ prev).trans (if_neg hne)).trans hprev
  have h₇ := h₆.and_then ((s1.setNext curr ⟨p,.deleted⟩).goto 0
      (.deleteTest ⟨prev,.inserted,curr,true,some (s.nodes curr).value⟩)) rfl
    (tick_of_remove rfl rfl (by
      rw [removeTick,State.cas,goto_next,if_pos hwon]
      exact congrArg some (goto_goto (s1.setNext curr ⟨p,.deleted⟩) 0 _ _)))
  have h₈ := h₇.and_then ((s1.setNext curr ⟨p,.deleted⟩).goto 0
      (.unlink ⟨prev,.inserted,curr,true,some (s.nodes curr).value⟩)) rfl
    (tick_of_remove rfl rfl (by simp [removeTick,hdeleted,goto_goto]))
  -- and unlinked
  have h₉ := h₈.and_then ((s1.setNext curr ⟨p,.deleted⟩).goto 0
      (.unlinkCas ⟨prev,.inserted,curr,true,some (s.nodes curr).value⟩ p)) rfl
    (tick_of_remove rfl rfl (by simp [removeTick,hdeleted,goto_goto]))
  have h10 := h₉.and_then (((s1.setNext curr ⟨p,.deleted⟩).setNext prev ⟨p,.inserted⟩).goto 0
      (.removed (some curr) true (some (s.nodes curr).value))) rfl
    (tick_of_remove rfl rfl (by
      rw [removeTick,State.cas,goto_next,if_pos hprev']
      exact congrArg some
        (goto_goto ((s1.setNext curr ⟨p,.deleted⟩).setNext prev ⟨p,.inserted⟩) 0 _ _)))
  refine ⟨_,h10,?_,?_⟩
  · rw [hs1]
    rfl
  · rw [hs1]
    rfl

/-- When nothing else runs, a call returns and does to the bindings what it should do to a sorted
list. -/
def Refines (cfg : Config) (s : State) (L : Bucket) (op : Op) : Prop :=
  ∃ n s' ids', (∀ fuel > n, finish cfg fuel (s.goto 0 (.start op)) =
      some (s',(L.perform cfg op).2)) ∧
    Holds cfg s' ids' (L.perform cfg op).1 ∧ s'.pc 0 = .idle

theorem get_refines (hkey : ValidKey cfg key) : Refines cfg s L (.get key) := by
  obtain ⟨n,hn⟩ := get_completes h hkey
  exact ⟨n,_,ids,hn,h.of_memory rfl rfl,goto_pc s 0 _⟩

omit h in
theorem find_ticks (op : Op) (hget : ∀ key, op ≠ .get key) (hkey : ValidKey cfg op.key)
    (h : Holds cfg s ids L) :
    ∃ n prev curr ids1 ids2, Arrived cfg s ids L op.key ids1 ids2 prev curr ∧
      Ticks cfg n (s.goto 0 (.start op))
        (s.goto 0 (afterFind cfg s prev .inserted curr .inserted op)) := by
  obtain ⟨n,prev,curr,ids1,ids2,ha,hticks⟩ := find_arrives op hget hkey h
  have hnot : (s.nodes curr).compare cfg op.key ≠ .lt := by
    rcases ha.compare h hkey with ⟨-,hgt⟩ | ⟨-,-,-,heq,-⟩
    · simp [hgt]
    · simp [heq]
  exact ⟨_,prev,curr,ids1,ids2,ha,hticks.trans (find_ends op prev hnot (ha.state h))⟩

theorem insert_refines {value keyJunk valueJunk : List Nat}
    (hkey : ValidKey cfg key) (hvalue : value.length ≤ cfg.valueSize) :
    Refines cfg s L (.insert key value keyJunk valueJunk) := by
  obtain ⟨n,prev,curr,ids1,ids2,ha,hticks⟩ :=
    find_ticks (.insert key value keyJunk valueJunk) (fun _ h => (by cases h)) hkey h
  have ha : Arrived cfg s ids L key ids1 ids2 prev curr := ha
  have hreturn : ∀ s' b, tick cfg (State.goto s' 0 (.inserted b)) 0 = some (s'.goto 0 .idle) :=
    fun s' b => tick_of_insert rfl (by simp [insertTick,goto_goto])
  rw [Refines,Bucket.perform]
  rcases ha.compare h hkey with ⟨hfind,hgt⟩ | ⟨e,ids2',hfind,heq,-,-⟩
  · -- a new node
    have hall := Ticks.trans (by simpa [afterFind,hgt] using hticks) (insert_ticks h ha hkey hvalue)
    rw [hfind]
    refine ⟨_,_,_,fun fuel hfuel => hall.completes ?_ (hreturn _ true) hfuel,
      (h.link ⟨fill cfg.keySize key keyJunk,fill cfg.valueSize value valueJunk,true,some curr,
        .intendToInsert⟩ ha hkey hfind rfl rfl).of_memory rfl rfl,goto_pc _ 0 _⟩
    rw [goto_pc]
    rfl
  · simp only [afterFind,heq] at hticks
    rw [hfind]
    refine ⟨_,_,_,fun fuel hfuel => hticks.completes ?_ (hreturn _ false) hfuel,
      h.of_memory rfl rfl,goto_pc _ 0 _⟩
    rw [goto_pc]
    rfl

theorem remove_refines (hkey : ValidKey cfg key) : Refines cfg s L (.remove key) := by
  obtain ⟨n,prev,curr,ids1,ids2,ha,hticks⟩ :=
    find_ticks (.remove key) (fun _ h => (by cases h)) hkey h
  have ha : Arrived cfg s ids L key ids1 ids2 prev curr := ha
  have hreturn : ∀ (s' : State) node own ret, tick cfg (s'.goto 0 (.removed node own ret)) 0 =
      some { s'.goto 0 .idle with log := s'.log ++ [⟨s'.call 0,node,own,ret⟩] } := by
    intro s' node own ret
    refine tick_of_remove rfl rfl ?_
    rw [removeTick]
    simp only [goto_goto]
    rfl
  rw [Refines,Bucket.perform]
  rcases ha.compare h hkey with ⟨hfind,hgt⟩ | ⟨e,ids2',hfind,heq,rfl,hstored⟩
  · simp only [afterFind,hgt] at hticks
    rw [hfind]
    refine ⟨_,_,_,fun fuel hfuel => hticks.completes ?_ (hreturn _ _ _ _) hfuel,
      h.of_memory rfl rfl,goto_pc s 0 _⟩
    rw [goto_pc]
    rfl
  · simp only [afterFind,heq] at hticks
    obtain ⟨s3,hremove,hnodes,hmade⟩ := remove_ticks h ha hstored.pptr
    have hall := hticks.trans hremove
    rw [hfind]
    refine ⟨_,_,_,fun fuel hfuel => hall.completes ?_ (hreturn _ _ _ _) hfuel,
      (h.unlink ha).of_memory hnodes hmade,goto_pc s3 0 _⟩
    rw [goto_pc,hstored.value]
    rfl

structure ValidOp (cfg : Config) (op : Op) : Prop where
  key : ValidKey cfg op.key
  value : op.value.length ≤ cfg.valueSize

theorem refines (hvalid : ValidOp cfg op) : Refines cfg s L op := by
  cases op with
  | get => exact get_refines h hvalid.key
  | insert =>
    exact insert_refines h hvalid.key hvalid.value
  | remove => exact remove_refines h hvalid.key

theorem perform_refines (hidle : s.pc 0 = .idle) (hvalid : ValidOp cfg op) :
    ∃ n s' ids', (∀ fuel > n, perform cfg fuel s op = some (s',(L.perform cfg op).2)) ∧
      Holds cfg s' ids' (L.perform cfg op).1 ∧ s'.pc 0 = .idle := by
  obtain ⟨s0,hs0⟩ : ∃ s0 : State, s0 = { s with
      calls := update s.calls 0 (s.calls 0 + 1) } := ⟨_,rfl⟩
  have h0 : Holds cfg s0 ids L := h.of_memory (by rw [hs0]) (by rw [hs0])
  obtain ⟨n,s',ids',hn,hholds,hidle'⟩ := refines h0 hvalid
  refine ⟨n,s',ids',fun fuel hfuel => ?_,hholds,hidle'⟩
  rw [perform,step,hidle,← hn fuel hfuel,hs0]
  rfl

end

end Montage.SOFTHashTable
