import Montage.MontageGraph.Integrity
import Montage.Recoverable.Memory

namespace Montage.MontageGraph
open Library Recoverable List Option
open ToBeFreed (Kind)

/-- What can end a call of the graph: its own checks or a call on a block. -/
inductive Failure where
  | crash (c : Crash)
  | fault (f : Fault)

/-- The graph with its payloads, as one thread uses it. `relations` are the `Relation` payloads
that were made and not deleted. -/
structure State where
  graph : Graph
  mem : Memory
  thread : Thread
  epoch : Nat
  relations : Finset Addr

section
variable (k : Kind) (al : Allocator) (s : State)

namespace State

def call (f : Heap → Thread → Call) : Except Failure State := do
  let (mem,thread) ← (s.mem.call s.thread f).mapError .fault
  return { s with mem := mem, thread := thread }

def on (f : Graph → Except Crash (Graph × α)) : Except Failure (State × α) := do
  let (g,a) ← (f s.graph).mapError .crash
  return ({ s with graph := g },a)

def beginOp : Except Failure State := s.call (Recoverable.beginOp k · · s.epoch [])

def endOp : Except Failure State := s.call (Recoverable.endOp k · · [])

def pnew : Except Failure (State × Addr) := do
  let a := al.fresh s.mem.allocated
  let s ← s.call (Recoverable.pnew k · · a)
  return (s,a)

def pnewRelation : Except Failure (State × Addr) := do
  let (s,a) ← s.pnew k al
  return ({ s with relations := insert a s.relations },a)

/-- `pdelete`. The payload of a vertex is not among the relations. -/
def pdelete (b : Addr) : Except Failure State := do
  let s ← s.call (Recoverable.pdelete · · b (al.fresh s.mem.allocated))
  return { s with relations := s.relations.erase b }

def incSeq (v : Nat) : State := { s with graph := MontageGraph.incSeq s.graph v }

end State

/-- `add_edge` by the only thread, which finds every lock free. -/
def State.addEdge (src dest : Nat) (weight : Int) : Except Failure (State × Bool) := do
  let (s,a) ← s.pnewRelation k al
  if src = dest then return (s,false)
  else if ¬s.graph.Present src ∨ ¬s.graph.Present dest then
    let s ← s.pdelete al a
    return (s,false)
  else
    let s ← s.beginOp k
    let (s,ret) ← s.on (MontageGraph.addEdge · ⟨a,weight,src,dest⟩)
    let s ← s.endOp k
    if ret then return (s,true)
    else
      let s ← s.pdelete al a
      return (s,false)

def State.removeEdge (src dest : Nat) : Except Failure (State × Bool) := do
  if src = dest then return (s,false)
  else if s.graph.Present src ∧ s.graph.Present dest then
    let s ← s.beginOp k
    let (s,ret) ← s.on (MontageGraph.removeEdge · src dest)
    let s ← ret.elim (pure s) fun r => s.pdelete al r.addr
    let s ← s.endOp k
    return (s,ret.isSome)
  else return (s,false)

/-- The loop of `add_vertex`, each round of which makes a relation inside the operation. -/
def connect (vid : Nat) (s : State) (u : Nat) : Except Failure State :=
  if ¬s.graph.Present u ∨ u = vid then .ok s
  else do
    let (s,a) ← s.pnewRelation k al
    return { s with graph := join vid s.graph ⟨a,-1,vid,u⟩ }

/-- The release of the locks of `add_vertex`. -/
def bump (vid : Nat) (s : State) (u : Nat) : State :=
  if s.graph.Present vid ∧ s.graph.Present u then s.incSeq u else s

def State.addVertex (vid : Nat) (samples : List Nat) : Except Failure (State × Bool) := do
  let vec := sampled vid samples
  let (s,a) ← s.pnew k al
  if ¬s.graph.Present vid then
    let s ← s.beginOp k
    let s := { s with graph := fresh s.graph vid a }
    let s ← vec.foldlM (connect k al vid) s
    let s ← s.endOp k
    return (vec.reverse.foldl (bump vid) s,true)
  else
    let s := vec.reverse.foldl (bump vid) s
    let s ← s.pdelete al a
    return (s,false)

/-- `remove_vertex`, which nobody disturbs between its two rounds of locking. -/
def State.removeVertex (vid : Nat) : Except Failure (State × Bool) := do
  if ¬s.graph.Present vid then return (s,false)
  else
    let vertices := neighbours s.graph vid
    if ∃ v ∈ vertices, ¬s.graph.Present v then throw (.crash .abort)
    else
      let s ← s.beginOp k
      let (s,deleted,payload) ← s.on (MontageGraph.removeVertex · vid vertices)
      let s ← deleted.foldlM (fun s r => s.pdelete al r.addr) s
      let s ← s.pdelete al payload
      let s ← s.endOp k
      return (vertices.reverse.foldl State.incSeq s,true)

/-- The calls of the thread, each with the allocator's choices, and what happens between them:
the epoch advances, and blocks are freed that waited for it. -/
inductive Act where
  | addEdge (al : Allocator) (src dest : Nat) (weight : Int)
  | removeEdge (al : Allocator) (src dest : Nat)
  | addVertex (al : Allocator) (vid : Nat) (samples : List Nat)
  | removeVertex (al : Allocator) (vid : Nat)
  | advance
  | drain (b : Addr) (l : Nat)

def next : Act → Except Failure State
  | .addEdge al src dest weight => (s.addEdge k al src dest weight).map Prod.fst
  | .removeEdge al src dest => (s.removeEdge k al src dest).map Prod.fst
  | .addVertex al vid samples => (s.addVertex k al vid samples).map Prod.fst
  | .removeVertex al vid => (s.removeVertex k al vid).map Prod.fst
  | .advance => .ok { s with epoch := s.epoch + 1 }
  | .drain b l => .ok { s with mem := s.mem.drain b l }

def Act.Permitted : Act → Prop
  | .drain b _ => b ∈ s.mem.waiting
  | _ => True

def step (act : Act) : Option State := (next k s act).toOption

/-- The `Relation` payloads that are registered and not deleted, or wait for the next operation
to register them. -/
def durable : Set Addr :=
  { a | a ∈ s.relations ∧ ((s.mem.heap a).epoch ≠ nullEpoch ∨ a ∈ s.thread.pendingAllocs) }

def edges (g : Graph) : Set (Edge × Relation) := { x | x ∈ source g x.1.1 }

/-- The durable relations are the edges, one for one. -/
def Mirrors : Prop := Set.BijOn (fun x => x.2.addr) (edges s.graph) (durable s)

def Act.loops : Act → Prop
  | .addEdge _ src dest _ => src = dest
  | _ => False

inductive Owner where
  | vertex (v : Nat)
  | edge (e : Edge)

def payload (g : Graph) : Owner → Option Addr
  | .vertex v => (g.vertex v).map TVertex.payload
  | .edge e => (find (source g e.1) e).map Relation.addr

/-- Each vertex and each edge has a live payload of its own, and there are no other
relations. -/
structure Owns (g : Graph) (m : Memory) (c : Nat) (relations : Finset Addr) : Prop where
  sound : Sound g
  live : ∀ o a, payload g o = some a → m.Live c a
  distinct : ∀ o o' a, payload g o = some a → payload g o' = some a → o = o'
  relations : ∀ a, a ∈ relations ↔ ∃ e, payload g (.edge e) = some a

structure Idle (th : Thread) : Prop where
  epoch : th.epoch = none
  allocs : th.pendingAllocs = []
  retires : th.pendingRetires = []

structure Inv : Prop where
  owns : Owns s.graph s.mem s.epoch s.relations
  tidy : s.mem.Tidy
  epoch : s.epoch ≠ nullEpoch
  idle : Idle s.thread

end

variable {g g' : Graph} {m m' : Memory} {c : Nat} {rel rel' : Finset Addr} {a b : Addr}
  {s s' : State} {th th' : Thread} {k : Kind} {al : Allocator} {r : Relation} {e : Edge}
  {f : Heap → Thread → Call}

theorem payload_edge (hs : Sound g) :
    payload g (.edge e) = some a ↔ ∃ r, (e,r) ∈ source g e.1 ∧ r.addr = a := by
  simp only [payload,map_eq_some_iff]
  constructor
  · rintro ⟨r,hr,rfl⟩
    exact ⟨r,find_some hr,rfl⟩
  · rintro ⟨r,hr,rfl⟩
    exact ⟨r,find_eq (hs.sourceKeys _) hr,rfl⟩

section
variable (h : Owns g m c rel)
include h

theorem Owns.allocated {o : Owner} (ho : payload g o = some a) :
    a ∈ m.allocated := (h.live o a ho).allocated

theorem Owns.restrict (hs : Sound g')
    (hkeep : ∀ o a, payload g' o = some a → payload g o = some a ∧ m.Same m' a)
    (hrel : ∀ a, a ∈ rel' ↔ ∃ e, payload g' (.edge e) = some a) : Owns g' m' c rel' where
  sound := hs
  live := by
    intro o a ho
    obtain ⟨ho,hsame⟩ := hkeep o a ho
    exact hsame.live (h.live o a ho)
  distinct := fun o o' a ho ho' => h.distinct o o' a (hkeep o a ho).1 (hkeep o' a ho').1
  relations := hrel

theorem Owns.same (hsame : ∀ a ∈ m.allocated, m.Same m' a) : Owns g m' c rel :=
  h.restrict h.sound (fun _ _ ho => ⟨ho,hsame _ (h.allocated ho)⟩) h.relations

theorem Owns.later (hc : c ≤ c') : Owns g m c' rel :=
  { h with live := fun o a ho => (h.live o a ho).later hc }

theorem Owns.extend (hs : Sound g') (new : Owner)
    (hnew : ∀ o a, payload g' o = some a ↔ payload g o = some a ∨ o = new ∧ a = b)
    (hb : m.Live c b) (hfree : ∀ o, payload g o ≠ some b)
    (hrel : ∀ a, a ∈ rel' ↔ ∃ e, payload g' (.edge e) = some a) : Owns g' m c rel' where
  sound := hs
  live := by
    intro o a ho
    rcases (hnew o a).mp ho with ho | ⟨-,rfl⟩
    · exact h.live o a ho
    · exact hb
  distinct := by
    intro o o' a ho ho'
    rcases (hnew o a).mp ho with ho | ⟨rfl,rfl⟩
    · rcases (hnew o' a).mp ho' with ho' | ⟨rfl,rfl⟩
      · exact h.distinct o o' a ho ho'
      · exact absurd ho (hfree o)
    · rcases (hnew o' a).mp ho' with ho' | ⟨rfl,-⟩
      · exact absurd ho' (hfree o')
      · rfl
  relations := hrel

theorem Owns.link (hc : Changed g (fun _ => False) (· = r) g')
    (hshape : Shape g g') (hne : r.src ≠ r.dest) (hr : m.Live c r.addr)
    (hfree : ∀ o, payload g o ≠ some r.addr) : Owns g' m c (insert r.addr rel) := by
  have hs := hc.sound h.sound (by rintro x rfl; exact hne)
  have hedge : ∀ e a, payload g' (.edge e) = some a ↔
      payload g (.edge e) = some a ∨ e = r.edge ∧ a = r.addr := by
    intro e a
    rw [payload_edge hs,payload_edge h.sound]
    constructor
    · rintro ⟨x,hx,rfl⟩
      rcases (hc.sources _ _ _).mp hx with ⟨hx,-⟩ | ⟨rfl,he,-⟩
      · exact .inl ⟨x,hx,rfl⟩
      · exact .inr ⟨he,rfl⟩
    · rintro (⟨x,hx,rfl⟩ | ⟨rfl,rfl⟩)
      · exact ⟨x,(hc.sources _ _ _).mpr (.inl ⟨hx,not_false⟩),rfl⟩
      · exact ⟨r,(hc.sources _ _ _).mpr (.inr ⟨rfl,rfl,rfl⟩),rfl⟩
  refine h.extend hs (.edge r.edge) ?_ hr hfree ?_
  · rintro (v | e) a
    · simp [payload,hshape v]
    · simp [hedge]
  · intro a
    simp only [Finset.mem_insert,h.relations,hedge,exists_or]
    constructor
    · rintro (rfl | ha)
      · exact .inr ⟨_,rfl,rfl⟩
      · exact .inl ha
    · rintro (ha | ⟨e,-,rfl⟩)
      · exact .inr ha
      · exact .inl rfl

omit h in
theorem call_ok (h : s.mem.call s.thread f = .ok (m',th')) :
    s.call f = .ok { s with mem := m', thread := th' } := by
  simp [State.call,h,Except.mapError,bind,Except.bind,pure,Except.pure]

omit h in
theorem pnew_ok (h : s.mem.call s.thread (Recoverable.pnew k · · (al.fresh s.mem.allocated)) =
    .ok (m',th')) :
    s.pnew k al = .ok ({ s with mem := m', thread := th' },al.fresh s.mem.allocated) := by
  simp [State.pnew,call_ok h,bind,Except.bind,pure,Except.pure]

omit h in
theorem pnew_relation_ok
    (h : s.mem.call s.thread (Recoverable.pnew k · · (al.fresh s.mem.allocated)) = .ok (m',th')) :
    s.pnewRelation k al = .ok ({ s with
      mem := m'
      thread := th'
      relations := insert (al.fresh s.mem.allocated) s.relations },al.fresh s.mem.allocated) := by
  simp [State.pnewRelation,pnew_ok h,bind,Except.bind,pure,Except.pure]

omit h in
theorem pdelete_ok
    (h : s.mem.call s.thread (Recoverable.pdelete · · b (al.fresh s.mem.allocated)) =
      .ok (m',th')) :
    s.pdelete al b = .ok { s with
      mem := m'
      thread := th'
      relations := s.relations.erase b } := by
  simp [State.pdelete,call_ok h,bind,Except.bind,pure,Except.pure]

theorem Owns.unowned (ha : a ∉ m.allocated) (o : Owner) :
    payload g o ≠ some a := fun ho => ha (h.allocated ho)

theorem Owns.makes (ha : a ∉ m.allocated) (hm : m.Makes a m') :
    Owns g m' c rel := h.same fun _ hx => hm.same fun he => ha (he ▸ hx)

section
variable (ha : ∀ o, payload g o ≠ some a)
include ha

theorem Owns.registers {i : Nat} (hm : m.Registers [a] c i m') : Owns g m' c rel :=
  h.restrict h.sound (fun o _ ho => ⟨ho,hm.same fun hx => ha o (mem_singleton.mp hx ▸ ho)⟩)
    h.relations

theorem Owns.frees (hm : m.Frees a m') : Owns g m' c rel :=
  h.restrict h.sound
    (fun o x ho => ⟨ho,hm.same x (h.allocated ho) fun hx => ha o (hx ▸ ho)⟩) h.relations

theorem Owns.not_relation : a ∉ rel := by
  intro hrel
  obtain ⟨e,he⟩ := (h.relations a).mp hrel
  exact ha _ he

theorem Owns.erase : Owns g m c ((insert a rel).erase a) := by
  rw [Finset.erase_insert (h.not_relation ha)]
  exact h

end

end

theorem pdelete_pending (al : Allocator) (s : State) (ht : s.mem.Tidy) (hepoch : s.thread.epoch = none)
    (hallocs : s.thread.pendingAllocs = [b]) (hb : s.mem.Unregistered b) :
    ∃ m', s.pdelete al b = .ok { s with
        mem := m'
        thread := { s.thread with pendingAllocs := [] }
        relations := s.relations.erase b } ∧ s.mem.Frees b m' := by
  obtain ⟨m',hdelete,hfrees⟩ :=
    Memory.pdelete_outside (a := al.fresh s.mem.allocated) ht hepoch hb.kept (by simp [hallocs])
  rw [if_pos hb.epoch,hallocs] at hdelete
  exact ⟨m',pdelete_ok (by simpa using hdelete),hfrees⟩

theorem pdelete_registered (al : Allocator) (s : State) (ht : s.mem.Tidy)
    (hepoch : s.thread.epoch = none)
    (hb : s.mem.Live c b) :
    ∃ m', s.pdelete al b = .ok { s with mem := m', relations := s.relations.erase b } ∧
      s.mem.Frees b m' := by
  obtain ⟨m',hdelete,hfrees⟩ := Memory.pdelete_outside (a := al.fresh s.mem.allocated) ht hepoch
    hb.kept fun hnull => absurd hnull hb.tagged
  rw [if_neg hb.tagged] at hdelete
  exact ⟨m',pdelete_ok hdelete,hfrees⟩

theorem pdelete_inside (al : Allocator) (s : State) (ht : s.mem.Tidy) (hepoch : s.thread.epoch = some c)
    (hb : s.mem.Live c b) :
    ∃ m', s.pdelete al b = .ok { s with mem := m', relations := s.relations.erase b } ∧
      s.mem.Frees b m' := by
  obtain ⟨m',hdelete,hfrees⟩ := Memory.pdelete_inside ht hepoch hb (al.fresh_not_mem _)
  exact ⟨m',pdelete_ok hdelete,hfrees⟩

theorem begin_op_ok (k : Kind) (s : State) (hepoch : s.thread.epoch = none)
    (hretires : s.thread.pendingRetires = [])
    (hc : s.epoch ≠ nullEpoch) (hbs : s.thread.pendingAllocs.Nodup)
    (hu : ∀ b ∈ s.thread.pendingAllocs, s.mem.Unregistered b) :
    ∃ m' th', s.beginOp k = .ok { s with mem := m', thread := th' } ∧ th'.epoch = some s.epoch ∧
      th'.pendingRetires = [] ∧
      s.mem.Registers s.thread.pendingAllocs s.epoch s.thread.nextId m' := by
  obtain ⟨m',hbegin,hregisters⟩ := Memory.begin_op (k := k) _ hepoch hretires hc hbs hu
  exact ⟨m',_,call_ok hbegin,rfl,hretires,hregisters⟩

theorem end_op_ok (k : Kind) (s : State) (hepoch : s.thread.epoch = some c)
    (hretires : s.thread.pendingRetires = []) :
    ∃ th', s.endOp k = .ok { s with thread := th' } ∧ Idle th' :=
  ⟨_,call_ok (Memory.end_op hepoch hretires),rfl,rfl,hretires⟩

/-- `add_edge` returns, and the relation it made is an edge or given back, unless the call
asked for a loop. -/
theorem add_edge_inv (al : Allocator) (h : Inv s) (hne : u ≠ v) (weight : Int) :
    ∃ s' ret, s.addEdge k al u v weight = .ok (s',ret) ∧ Inv s' := by
  obtain ⟨howns,htidy,hepoch,hidle⟩ := h
  have hfresh := al.fresh_not_mem s.mem.allocated
  obtain ⟨m1,hpnew,hmakes,hunreg⟩ := Memory.pnew_outside (k := k) htidy hidle.epoch hfresh
  have howns1 := howns.makes hfresh hmakes
  have hfree := howns.unowned hfresh
  have htidy1 := hmakes.tidy htidy
  rw [hidle.allocs,nil_append] at hpnew
  have hmade : s.pnewRelation k al = _ := pnew_relation_ok hpnew
  generalize al.fresh s.mem.allocated = a at *
  simp only [State.addEdge,hmade,bind,Except.bind,if_neg hne]
  split
  next =>
    -- a vertex is missing
    obtain ⟨m2,hdelete,hfrees⟩ := pdelete_pending al { s with
      mem := m1
      thread := { s.thread with pendingAllocs := [a] }
      relations := insert a s.relations } htidy1 hidle.epoch rfl hunreg
    simp only [hdelete]
    exact ⟨_,_,rfl,(howns1.frees hfree hfrees).erase hfree,hfrees.tidy,hepoch,
      hidle.epoch,rfl,hidle.retires⟩
  next =>
    obtain ⟨m2,th2,hbegin,hepoch2,hretires2,hreg⟩ := begin_op_ok k { s with
      mem := m1
      thread := { s.thread with pendingAllocs := [a] }
      relations := insert a s.relations } hidle.epoch hidle.retires hepoch
      (nodup_singleton a) (by simpa using hunreg)
    have howns2 := howns1.registers hfree hreg
    have hlive := hreg.live hepoch (mem_singleton_self a) hunreg.allocated hunreg.kept
    rw [hbegin]
    simp only
    rcases add_edge_spec (r := ⟨a,weight,u,v⟩) howns.sound with
      ⟨hadd,-⟩ | ⟨g',hadd,-,-,hchanged,hshape,-⟩
    · -- the edge is there already
      obtain ⟨th3,hend,hidle3⟩ := end_op_ok k { s with
        mem := m2
        thread := th2
        relations := insert a s.relations } hepoch2 hretires2
      obtain ⟨m4,hdelete,hfrees⟩ := pdelete_registered al { s with
        mem := m2
        thread := th3
        relations := insert a s.relations } (hreg.tidy htidy1) hidle3.epoch hlive
      simp only [State.on,hadd,Except.mapError,bind,Except.bind,pure,Except.pure,hend,hdelete]
      exact ⟨_,_,rfl,(howns2.frees hfree hfrees).erase hfree,hfrees.tidy,hepoch,hidle3⟩
    · obtain ⟨th3,hend,hidle3⟩ := end_op_ok k { s with
        graph := g'
        mem := m2
        thread := th2
        relations := insert a s.relations } hepoch2 hretires2
      simp only [State.on,hadd,Except.mapError,bind,Except.bind,pure,Except.pure,hend]
      exact ⟨_,_,rfl,howns2.link hchanged hshape hne hlive hfree,hreg.tidy htidy1,hepoch,hidle3⟩

theorem payload_drop {drop : Edge → Prop} (hs : Sound g)
    (hc : Changed g drop (fun _ => False) g') :
    payload g' (.edge e) = some a ↔ payload g (.edge e) = some a ∧ ¬drop e := by
  rw [payload_edge (hc.sound hs (by simp)),payload_edge hs]
  simp only [hc.sources,false_and,or_false]
  constructor
  · rintro ⟨r,⟨hr,hd⟩,rfl⟩
    exact ⟨⟨r,hr,rfl⟩,hd⟩
  · rintro ⟨⟨r,hr,rfl⟩,hd⟩
    exact ⟨r,⟨hr,hd⟩,rfl⟩

/-- Edges are dropped, perhaps with a vertex, and the payloads in `gone`, which were theirs,
are deleted. -/
theorem Owns.drop {drop : Edge → Prop} (h : Owns g m c rel) (gone : Addr → Prop)
    (hc : Changed g drop (fun _ => False) g')
    (hvertex : ∀ v a, payload g' (.vertex v) = some a → payload g (.vertex v) = some a)
    (hsame : ∀ a ∈ m.allocated, ¬gone a → m.Same m' a)
    (hgone : ∀ a, gone a → ∃ o, payload g o = some a ∧ payload g' o ≠ some a)
    (hdropped : ∀ e a, drop e → payload g (.edge e) = some a → gone a)
    (hrel : ∀ a, a ∈ rel' ↔ a ∈ rel ∧ ¬gone a) : Owns g' m' c rel' := by
  have hkeep : ∀ o a, payload g' o = some a → payload g o = some a ∧ ¬gone a := by
    intro o a ho
    have ho0 : payload g o = some a := by
      cases o with
      | vertex v => exact hvertex v a ho
      | edge => exact ((payload_drop h.sound hc).mp ho).1
    refine ⟨ho0,fun hg => ?_⟩
    obtain ⟨o',ho',hlost⟩ := hgone a hg
    exact hlost (h.distinct o o' a ho0 ho' ▸ ho)
  refine h.restrict (hc.sound h.sound (by simp)) ?_ ?_
  · intro o a ho
    obtain ⟨ho0,hg⟩ := hkeep o a ho
    exact ⟨ho0,hsame a (h.allocated ho0) hg⟩
  · intro a
    rw [hrel,h.relations]
    constructor
    · rintro ⟨⟨e,he⟩,hg⟩
      exact ⟨e,(payload_drop h.sound hc).mpr ⟨he,fun hd => hg (hdropped e a hd he)⟩⟩
    · rintro ⟨e,he⟩
      exact ⟨⟨e,(hkeep _ a he).1⟩,(hkeep _ a he).2⟩

theorem pdeletes_inside (al : Allocator) (s : State) (rs : List Relation)
    (hdistinct : (rs.map Relation.addr).Nodup) (ht : s.mem.Tidy) (hepoch : s.thread.epoch = some c)
    (hlive : ∀ r ∈ rs, s.mem.Live c r.addr) :
    ∃ m' rel', rs.foldlM (fun s r => s.pdelete al r.addr) s =
        .ok { s with mem := m', relations := rel' } ∧ m'.Tidy ∧
      (∀ x ∈ s.mem.allocated, (∀ r ∈ rs, x ≠ r.addr) → s.mem.Same m' x) ∧
      ∀ a, a ∈ rel' ↔ a ∈ s.relations ∧ ∀ r ∈ rs, a ≠ r.addr := by
  induction rs generalizing s with
  | nil => exact ⟨s.mem,s.relations,rfl,ht,fun x _ _ => .refl _ x,by simp⟩
  | cons r rs ih =>
    obtain ⟨hr,hdistinct⟩ := nodup_cons.mp hdistinct
    obtain ⟨m1,hdelete,hfrees⟩ := pdelete_inside al s ht hepoch (hlive r mem_cons_self)
    have hlive1 : ∀ x ∈ rs, m1.Live c x.addr := by
      intro x hx
      have hx' := hlive x (mem_cons_of_mem _ hx)
      have hne : x.addr ≠ r.addr := fun he => hr (mem_map.mpr ⟨x,hx,he⟩)
      exact (hfrees.same _ hx'.allocated hne).live hx'
    obtain ⟨m',rel',hrest,ht',hsame,hrel⟩ :=
      ih { s with mem := m1, relations := s.relations.erase r.addr } hdistinct hfrees.tidy hepoch
        hlive1
    refine ⟨m',rel',?_,ht',?_,?_⟩
    · rw [foldlM_cons,hdelete]
      simpa [bind,Except.bind] using hrest
    · intro x hx hne
      have h1 := hfrees.same x hx (hne r mem_cons_self)
      exact h1.trans (hsame x (h1.allocated.mpr hx) fun y hy => hne y (mem_cons_of_mem _ hy))
    · intro a
      rw [hrel]
      simp only [Finset.mem_erase,mem_cons,forall_eq_or_imp]
      tauto

structure Working (s : State) : Prop where
  owns : Owns s.graph s.mem s.epoch s.relations
  tidy : s.mem.Tidy
  epoch : s.epoch ≠ nullEpoch
  thread : s.thread.epoch = some s.epoch
  retires : s.thread.pendingRetires = []

theorem Working.end_op (h : Working s) :
    ∃ th', s.endOp k = .ok { s with thread := th' } ∧ Inv { s with thread := th' } := by
  obtain ⟨th',hend,hidle⟩ := end_op_ok k s h.thread h.retires
  exact ⟨th',hend,h.owns,h.tidy,h.epoch,hidle⟩

theorem Inv.begin_op (h : Inv s) :
    ∃ m' th', s.beginOp k = .ok { s with mem := m', thread := th' } ∧
      Working { s with mem := m', thread := th' } := by
  obtain ⟨howns,htidy,hepoch,hidle⟩ := h
  obtain ⟨m',th',hbegin,hepoch',hretires,hreg⟩ := begin_op_ok k s hidle.epoch hidle.retires
    hepoch (by simp [hidle.allocs]) (by simp [hidle.allocs])
  rw [hidle.allocs] at hreg
  exact ⟨m',th',hbegin,howns.same fun _ _ => hreg.same not_mem_nil,hreg.tidy htidy,hepoch,
    hepoch',hretires⟩

theorem remove_edge_inv (al : Allocator) (h : Inv s) (u v : Nat) :
    ∃ s' ret, s.removeEdge k al u v = .ok (s',ret) ∧ Inv s' := by
  unfold State.removeEdge
  split
  next => exact ⟨s,false,rfl,h⟩
  next =>
    split
    next =>
      obtain ⟨m1,th1,hbegin,hworking⟩ := h.begin_op (k := k)
      have hs := h.owns.sound
      rcases remove_edge_spec hs u v with hremove | ⟨g',r,hremove,hr,hchanged,hshape,-⟩
      · obtain ⟨th2,hend,hinv⟩ := hworking.end_op (k := k)
        simp only [hbegin,State.on,hremove,Except.mapError,bind,Except.bind,pure,Except.pure,
          Option.elim,hend]
        exact ⟨_,_,rfl,hinv⟩
      · have hpay : payload s.graph (.edge (u,v)) = some r.addr := (payload_edge hs).mpr ⟨r,hr,rfl⟩
        obtain ⟨m2,hdelete,hfrees⟩ := pdelete_inside al
          { s with graph := g', mem := m1, thread := th1 } hworking.tidy hworking.thread
          (hworking.owns.live _ _ hpay)
        have hworking2 : Working { s with
            graph := g'
            mem := m2
            thread := th1
            relations := s.relations.erase r.addr } := by
          refine ⟨hworking.owns.drop (· = r.addr) hchanged ?_ hfrees.same ?_ ?_ ?_,hfrees.tidy,
            h.epoch,hworking.thread,hworking.retires⟩
          · intro w a hw
            rw [← hw]
            exact (hshape w).symm
          · rintro a rfl
            exact ⟨_,hpay,fun he => ((payload_drop hs hchanged).mp he).2 rfl⟩
          · rintro e a rfl he
            exact some.inj (he.symm.trans hpay)
          · intro a
            rw [Finset.mem_erase,and_comm]
        obtain ⟨th2,hend,hinv⟩ := hworking2.end_op (k := k)
        simp only [hbegin,State.on,hremove,Except.mapError,bind,Except.bind,pure,Except.pure,
          Option.elim,hdelete,hend]
        exact ⟨_,_,rfl,hinv⟩
    next => exact ⟨s,false,rfl,h⟩

theorem Owns.seqs (h : Owns g m c rel) (hg : g'.vertex = g.vertex) : Owns g' m c rel := by
  obtain ⟨vertex,seqs⟩ := g
  obtain ⟨vertex',seqs'⟩ := g'
  obtain rfl : vertex' = vertex := hg
  exact ⟨⟨h.sound.sourceKeys,h.sound.destinationKeys,h.sound.sources,h.sound.destinations,
    h.sound.mirror⟩,h.live,h.distinct,h.relations⟩

theorem fold_seqs {f : State → Nat → State}
    (hf : ∀ s u, ∃ q, f s u = { s with graph := { s.graph with vertexSeqs := q } })
    (s : State) (vec : List Nat) :
    ∃ q, vec.foldl f s = { s with graph := { s.graph with vertexSeqs := q } } := by
  induction vec generalizing s with
  | nil => exact ⟨s.graph.vertexSeqs,rfl⟩
  | cons u _ ih =>
    obtain ⟨q,hq⟩ := hf s u
    rw [foldl_cons,hq]
    exact ih _

theorem Inv.seqs {q : Nat → Nat} (h : Inv s) :
    Inv { s with graph := { s.graph with vertexSeqs := q } } :=
  ⟨h.owns.seqs rfl,h.tidy,h.epoch,h.idle⟩

theorem bump_seqs (v : Nat) (s : State) (u : Nat) :
    ∃ q, bump v s u = { s with graph := { s.graph with vertexSeqs := q } } := by
  unfold bump
  split
  next => exact ⟨_,rfl⟩
  next => exact ⟨s.graph.vertexSeqs,rfl⟩

theorem inc_seq_seqs (s : State) (u : Nat) :
    ∃ q, s.incSeq u = { s with graph := { s.graph with vertexSeqs := q } } := ⟨_,rfl⟩

theorem connect_working (h : Working s) (hv : s.graph.Present v)
    (hnew : hasRelation (source s.graph v) (v,u) = false) :
    ∃ s', connect k al v s u = .ok s' ∧ Working s' ∧ s'.graph.Present v ∧
      ∀ w, w ≠ u → hasRelation (source s.graph v) (v,w) = false →
        hasRelation (source s'.graph v) (v,w) = false := by
  unfold connect
  split
  next => exact ⟨s,rfl,h,hv,fun _ _ h => h⟩
  next hskip =>
    have hfresh := al.fresh_not_mem s.mem.allocated
    obtain ⟨m1,hpnew,hmakes,hlive,-⟩ :=
      Memory.pnew_inside (k := k) h.tidy h.thread h.epoch hfresh
    have hmade : s.pnewRelation k al = _ := pnew_relation_ok hpnew
    have howns := h.owns.makes hfresh hmakes
    have hfree := h.owns.unowned hfresh
    generalize al.fresh s.mem.allocated = a at *
    rcases join_spec (r := ⟨a,-1,v,u⟩) h.owns.sound hv hnew with
      ⟨hskip',-⟩ | ⟨-,hne,hchanged,hshape,-⟩
    · exact absurd hskip' hskip
    · simp only [hmade,bind,Except.bind,pure,Except.pure]
      refine ⟨_,rfl,⟨howns.link hchanged hshape hne.symm hlive hfree,hmakes.tidy h.tidy,h.epoch,
        h.thread,h.retires⟩,hshape.present.mpr hv,?_⟩
      intro w hw hold
      rw [Bool.eq_false_iff]
      intro hnow
      obtain ⟨x,hx⟩ := hasRelation_iff.mp hnow
      rcases (hchanged.sources _ _ _).mp hx with ⟨hx,-⟩ | ⟨rfl,he,-⟩
      · rw [hasRelation_iff.mpr ⟨x,hx⟩] at hold
        cases hold
      · exact hw (congrArg Prod.snd he)

theorem connects_working {vec : List Nat} (h : Working s) (hv : s.graph.Present v)
    (hdistinct : vec.Nodup)
    (hnew : ∀ u ∈ vec, hasRelation (source s.graph v) (v,u) = false) :
    ∃ s', vec.foldlM (connect k al v) s = .ok s' ∧ Working s' := by
  induction vec generalizing s with
  | nil => exact ⟨s,rfl,h⟩
  | cons u _ ih =>
    obtain ⟨hu,hdistinct⟩ := nodup_cons.mp hdistinct
    obtain ⟨s₁,hs1,h1,hv1,hother⟩ : ∃ s₁, connect k al v s u = .ok s₁ ∧ _ :=
      connect_working h hv (hnew u mem_cons_self)
    obtain ⟨s',hs',h'⟩ := ih h1 hv1 hdistinct fun w hw =>
      hother w (fun he => hu (he ▸ hw)) (hnew w (mem_cons_of_mem _ hw))
    exact ⟨s',by rw [foldlM_cons,hs1]; exact hs',h'⟩

theorem Owns.fresh (h : Owns g m c rel) (hv : ¬g.Present v) (hlive : m.Live c a)
    (hfree : ∀ o, payload g o ≠ some a) : Owns (MontageGraph.fresh g v a) m c rel := by
  have hedge : ∀ e, payload (MontageGraph.fresh g v a) (.edge e) = payload g (.edge e) := by
    intro e
    rw [payload,payload,source_fresh hv]
  refine h.extend ((fresh_changed h.sound hv a).sound h.sound (by simp)) (.vertex v) ?_ hlive hfree ?_
  · rintro (w | e) x
    · by_cases hw : w = v
      · subst hw
        simp [payload,MontageGraph.fresh,not_not.mp hv,eq_comm]
      · simp [payload,MontageGraph.fresh,hw]
    · simp [hedge]
  · simp only [hedge]
    exact h.relations

theorem add_vertex_inv (al : Allocator) (h : Inv s) (v : Nat) (samples : List Nat) :
    ∃ s' ret, s.addVertex k al v samples = .ok (s',ret) ∧ Inv s' := by
  obtain ⟨howns,htidy,hepoch,hidle⟩ := h
  have hfresh := al.fresh_not_mem s.mem.allocated
  obtain ⟨m1,hpnew,hmakes,hunreg⟩ := Memory.pnew_outside (k := k) htidy hidle.epoch hfresh
  have howns1 := howns.makes hfresh hmakes
  have hfree := howns.unowned hfresh
  have htidy1 := hmakes.tidy htidy
  rw [hidle.allocs,nil_append] at hpnew
  have hmade : s.pnew k al = _ := pnew_ok hpnew
  generalize al.fresh s.mem.allocated = a at *
  simp only [State.addVertex,hmade,bind,Except.bind]
  split
  next hv =>
    obtain ⟨m2,th2,hbegin,hepoch2,hretires2,hreg⟩ := begin_op_ok k { s with
      mem := m1
      thread := { s.thread with pendingAllocs := [a] } } hidle.epoch hidle.retires hepoch
      (nodup_singleton a) (by simpa using hunreg)
    have hlive := hreg.live hepoch (mem_singleton_self a) hunreg.allocated hunreg.kept
    have hworking : Working { s with
        graph := fresh s.graph v a
        mem := m2
        thread := th2 } :=
      ⟨(howns1.registers hfree hreg).fresh hv hlive hfree,hreg.tidy htidy1,hepoch,hepoch2,hretires2⟩
    have hnone : source (fresh s.graph v a) v = [] :=
      (source_fresh hv a v).trans (source_none hv)
    have hdistinct : (sampled v samples).Nodup :=
      (sort_unique_sorted _).imp fun hlt => ne_of_lt hlt
    obtain ⟨s3,hconnect,hworking3⟩ :
        ∃ s3, (sampled v samples).foldlM (connect k al v) _ = .ok s3 ∧ Working s3 :=
      connects_working hworking ((present_fresh a).mpr (.inl rfl)) hdistinct
        (by simp [hnone,hasRelation,find])
    obtain ⟨th4,hend,hinv⟩ := hworking3.end_op (k := k)
    obtain ⟨q,hq⟩ := fold_seqs (bump_seqs v) { s3 with thread := th4 } (sampled v samples).reverse
    simp only [hbegin,hconnect,hend,hq]
    exact ⟨_,_,rfl,hinv.seqs⟩
  next =>
    obtain ⟨q,hq⟩ := fold_seqs (bump_seqs v) { s with
      mem := m1
      thread := { s.thread with pendingAllocs := [a] } } (sampled v samples).reverse
    obtain ⟨m2,hdelete,hfrees⟩ := pdelete_pending al { s with
      graph := { s.graph with vertexSeqs := q }
      mem := m1
      thread := { s.thread with pendingAllocs := [a] } } htidy1 hidle.epoch rfl hunreg
    simp only [hq,hdelete]
    refine ⟨_,_,rfl,Owns.seqs (g := s.graph) ?_ rfl,hfrees.tidy,hepoch,hidle.epoch,rfl,hidle.retires⟩
    rw [Finset.erase_eq_of_notMem (howns.not_relation hfree)]
    exact howns1.frees hfree hfrees

theorem payload_destroy (hshape : Shape g g') (w : Nat) :
    payload (destroy g' v) (.vertex w) = if w = v then none else payload g (.vertex w) := by
  by_cases hw : w = v
  · simp [payload,destroy,hw]
  · simpa [payload,destroy,hw] using hshape w

theorem Owns.destroy (h : Owns g m c rel) (hc : Changed g (At v) (fun _ => False) (destroy g' v))
    (hshape : Shape g g') {rs : List Relation} {p : Addr}
    (hrs : ∀ r, r ∈ rs ↔ At v r.edge ∧ (r.edge,r) ∈ source g r.src)
    (hp : payload g (.vertex v) = some p)
    (hsame : ∀ x ∈ m.allocated, (∀ r ∈ rs, x ≠ r.addr) → x ≠ p → m.Same m' x)
    (hrel : ∀ a, a ∈ rel' ↔ (a ∈ rel ∧ ∀ r ∈ rs, a ≠ r.addr) ∧ a ≠ p) :
    Owns (destroy g' v) m' c rel' := by
  have hedge : ∀ r ∈ rs, payload g (.edge r.edge) = some r.addr := fun r hr =>
    (payload_edge h.sound).mpr ⟨r,((hrs r).mp hr).2,rfl⟩
  refine h.drop (fun a => (∃ r ∈ rs, a = r.addr) ∨ a = p) hc ?_ ?_ ?_ ?_ ?_
  · intro w a hw
    rw [payload_destroy hshape] at hw
    split at hw
    next => cases hw
    next => exact hw
  · intro a ha hg
    obtain ⟨hne,hnp⟩ := not_or.mp hg
    exact hsame a ha (fun r hr he => hne ⟨r,hr,he⟩) hnp
  · rintro a (⟨r,hr,rfl⟩ | rfl)
    · refine ⟨_,hedge r hr,fun he => ?_⟩
      exact ((payload_drop h.sound hc).mp he).2 ((hrs r).mp hr).1
    · refine ⟨_,hp,?_⟩
      rw [payload_destroy hshape]
      simp
  · intro e a hat he
    obtain ⟨r,hr,rfl⟩ := (payload_edge h.sound).mp he
    obtain ⟨-,hre,-⟩ := h.sound.sources _ _ r hr
    have hsrc : r.src = e.1 := congrArg Prod.fst hre
    refine .inl ⟨r,(hrs r).mpr ⟨hre ▸ hat,?_⟩,rfl⟩
    rw [hre,hsrc]
    exact hr
  · intro a
    rw [hrel]
    push Not
    tauto

theorem Owns.dropped {others : List Nat} (h : Owns g m c rel)
    (hothers : ∀ w, w ∈ others ↔ w = v ∨ Adjacent g v w) :
    ∀ r ∈ dropped g v others, payload g (.edge r.edge) = some r.addr := fun r hr =>
  (payload_edge h.sound).mpr ⟨r,((mem_dropped h.sound hothers).mp hr).2,rfl⟩

theorem Owns.dropped_nodup {others : List Nat} (h : Owns g m c rel) (hdistinct : others.Nodup)
    (hothers : ∀ w, w ∈ others ↔ w = v ∨ Adjacent g v w) :
    ((MontageGraph.dropped g v others).map Relation.addr).Nodup := by
  have hedges := MontageGraph.dropped_nodup (v := v) h.sound hdistinct
  refine List.Nodup.map_on ?_ (Nodup.of_map _ hedges)
  intro r hr r' hr' he
  have hsame := h.distinct _ _ _ (h.dropped hothers r hr) (he ▸ h.dropped hothers r' hr')
  exact inj_on_of_nodup_map hedges hr hr' (Owner.edge.inj hsame)

theorem remove_vertex_inv (al : Allocator) (h : Inv s) (v : Nat) :
    ∃ s' ret, s.removeVertex k al v = .ok (s',ret) ∧ Inv s' := by
  unfold State.removeVertex
  split
  next => exact ⟨s,false,rfl,h⟩
  next hv =>
    have hs := h.owns.sound
    have hothers : ∀ w, w ∈ neighbours s.graph v ↔ w = v ∨ Adjacent s.graph v w := fun w =>
      mem_neighbours hs
    have hpresent : ¬∃ w ∈ neighbours s.graph v, ¬s.graph.Present w := by
      rintro ⟨w,hw,hnot⟩
      rcases (hothers w).mp hw with rfl | hadj
      · exact hnot (not_not.mp hv)
      · exact hnot (hadj.present hs)
    have hdistinct : (neighbours s.graph v).Nodup :=
      (sort_unique_sorted _).imp fun hlt => ne_of_lt hlt
    obtain ⟨m1,th1,hbegin,hworking⟩ := h.begin_op (k := k)
    obtain ⟨g1,t,hremove,ht,hshape,-,hchanged⟩ :=
      remove_vertex_spec hs (not_not.mp hv) hdistinct hothers
    have hedge := h.owns.dropped hothers
    have hvertex : payload s.graph (.vertex v) = some t.payload := by simp [payload,ht]
    obtain ⟨m2,rel2,hdeletes,htidy2,hsame2,hrel2⟩ := pdeletes_inside al { s with
      graph := destroy g1 v
      mem := m1
      thread := th1 } _ (h.owns.dropped_nodup hdistinct hothers) hworking.tidy hworking.thread
      (fun r hr => hworking.owns.live _ _ (hedge r hr))
    have hown : ∀ r ∈ dropped s.graph v (neighbours s.graph v), t.payload ≠ r.addr := by
      intro r hr he
      cases h.owns.distinct _ _ _ hvertex (he ▸ hedge r hr)
    have hlive := hworking.owns.live _ _ hvertex
    obtain ⟨m3,hdelete,hfrees⟩ := pdelete_inside al { s with
      graph := destroy g1 v
      mem := m2
      thread := th1
      relations := rel2 } htidy2 hworking.thread ((hsame2 _ hlive.allocated hown).live hlive)
    have hworking3 : Working { s with
        graph := destroy g1 v
        mem := m3
        thread := th1
        relations := rel2.erase t.payload } := by
      refine ⟨hworking.owns.destroy hchanged hshape (fun _ => mem_dropped hs hothers) hvertex ?_ ?_,
        hfrees.tidy,h.epoch,hworking.thread,hworking.retires⟩
      · intro x hx hne hnp
        have h2 := hsame2 x hx hne
        exact h2.trans (hfrees.same x (h2.allocated.mpr hx) hnp)
      · intro a
        rw [Finset.mem_erase,hrel2,and_comm]
    obtain ⟨th4,hend,hinv⟩ := hworking3.end_op (k := k)
    obtain ⟨q,hq⟩ := fold_seqs inc_seq_seqs { s with
      graph := destroy g1 v
      mem := m3
      thread := th4
      relations := rel2.erase t.payload } (neighbours s.graph v).reverse
    simp only [if_neg hpresent,hbegin,State.on,hremove,Except.mapError,bind,Except.bind,pure,
      Except.pure,hdeletes,hdelete,hend,hq]
    exact ⟨_,_,rfl,hinv.seqs⟩

theorem drain_inv (h : Inv s) (hb : b ∈ s.mem.waiting) (l : Nat) :
    Inv { s with mem := s.mem.drain b l } := by
  refine ⟨h.owns.restrict h.owns.sound ?_ h.owns.relations,Memory.drain_tidy h.tidy,h.epoch,h.idle⟩
  intro o a ho
  refine ⟨ho,Memory.drain_same h.tidy ?_⟩
  rintro rfl
  exact (h.owns.live o a ho).kept hb

theorem next_inv (h : Inv s) {act : Act} (hp : act.Permitted s) (hl : ¬act.loops) :
    ∃ s', step k s act = some s' ∧ Inv s' := by
  cases act with
  | addEdge al u v weight =>
    obtain ⟨s',ret,hret,hinv⟩ := add_edge_inv (k := k) al h hl weight
    exact ⟨s',by simp [step,next,hret,Except.map,Except.toOption],hinv⟩
  | removeEdge al u v =>
    obtain ⟨s',ret,hret,hinv⟩ := remove_edge_inv (k := k) al h u v
    exact ⟨s',by simp [step,next,hret,Except.map,Except.toOption],hinv⟩
  | addVertex al v samples =>
    obtain ⟨s',ret,hret,hinv⟩ := add_vertex_inv (k := k) al h v samples
    exact ⟨s',by simp [step,next,hret,Except.map,Except.toOption],hinv⟩
  | removeVertex al v =>
    obtain ⟨s',ret,hret,hinv⟩ := remove_vertex_inv (k := k) al h v
    exact ⟨s',by simp [step,next,hret,Except.map,Except.toOption],hinv⟩
  | advance =>
    exact ⟨_,rfl,h.owns.later (Nat.le_succ _),h.tidy,Nat.succ_ne_zero _,h.idle⟩
  | drain b l => exact ⟨_,rfl,drain_inv h hp l⟩

theorem Inv.mirrors (h : Inv s) : Mirrors s := by
  have hs := h.owns.sound
  have hpay : ∀ x ∈ edges s.graph, payload s.graph (.edge x.1) = some x.2.addr := fun x hx =>
    (payload_edge hs).mpr ⟨x.2,hx,rfl⟩
  refine ⟨?_,?_,?_⟩
  · intro x hx
    exact ⟨(h.owns.relations _).mpr ⟨x.1,hpay x hx⟩,.inl (h.owns.live _ _ (hpay x hx)).tagged⟩
  · intro x hx y hy he
    have he : y.2.addr = x.2.addr := he.symm
    have hedge : x.1 = y.1 := Owner.edge.inj
      (h.owns.distinct _ _ _ (hpay x hx) ((hpay y hy).trans (congrArg some he)))
    have hx' : x ∈ source s.graph y.1.1 := hedge ▸ hx
    exact inj_on_of_nodup_map (hs.sourceKeys _) hx' hy hedge
  · rintro a ⟨ha,-⟩
    obtain ⟨e,he⟩ := (h.owns.relations a).mp ha
    obtain ⟨r,hr,rfl⟩ := (payload_edge hs).mp he
    exact ⟨(e,r),hr,rfl⟩

theorem loop_not_mirrors (h : Inv s) {act : Act} (hl : act.loops) (hnext : step k s act = some s') :
    ¬Mirrors s' := by
  cases act with
  | addEdge al u v =>
    obtain rfl : u = v := hl
    have hfresh := al.fresh_not_mem s.mem.allocated
    obtain ⟨m1,hpnew,-⟩ := Memory.pnew_outside (k := k) h.tidy h.idle.epoch hfresh
    have hmade : s.pnewRelation k al = _ := pnew_relation_ok hpnew
    simp only [step,next,State.addEdge,hmade,bind,Except.bind,if_pos,pure,Except.pure,Except.map,
      Except.toOption,some.injEq] at hnext
    subst hnext
    rintro ⟨-,-,hsurj⟩
    obtain ⟨x,hx,hxa⟩ := hsurj (a := al.fresh s.mem.allocated)
      ⟨Finset.mem_insert_self _ _,.inr (by simp)⟩
    have hpay : payload s.graph (.edge x.1) = some x.2.addr :=
      (payload_edge h.owns.sound).mpr ⟨x.2,hx,rfl⟩
    exact h.owns.unowned hfresh _ (hpay.trans (congrArg some hxa))
  | removeEdge | addVertex | removeVertex | advance | drain => cases hl

/-- Throughout a run the durable relations mirror the edges exactly if no call asks for an
edge from a vertex to itself. -/
theorem mirrors_iff_no_loop (k : Kind) {start s : State} {ms : List (Move State Act)}
    (h : Inv start) (run : Run (step k) (fun s act => act.Permitted s) start ms s) :
    (∀ m ∈ ms, Mirrors m.post) ↔ ∀ m ∈ ms, ¬m.act.loops := by
  suffices hboth : ((∀ m ∈ ms, Mirrors m.post) ∨ ∀ m ∈ ms, ¬m.act.loops) →
      (∀ m ∈ ms, Mirrors m.post) ∧ (∀ m ∈ ms, ¬m.act.loops) ∧ Inv s from
    ⟨fun hm => (hboth (.inl hm)).2.1,fun hl => (hboth (.inr hl)).1⟩
  induction run with
  | nil => exact fun _ => ⟨by simp,by simp,h⟩
  | @snoc ms t act t' run permitted hnext ih =>
    intro hor
    obtain ⟨hmirrors,hloops,hinv⟩ := ih (hor.imp
      (fun hm m hmem => hm m (mem_append_left _ hmem))
      (fun hl m hmem => hl m (mem_append_left _ hmem)))
    have hl : ¬act.loops := by
      rcases hor with hm | hl
      · exact fun hl => loop_not_mirrors hinv hl hnext (hm ⟨t,act,t'⟩ (by simp))
      · exact hl ⟨t,act,t'⟩ (by simp)
    obtain ⟨t1,ht1,hinv'⟩ := next_inv (k := k) hinv permitted hl
    obtain rfl : t1 = t' := some.inj (ht1.symm.trans hnext)
    refine ⟨?_,?_,hinv'⟩
    · intro m hm
      rcases mem_append.mp hm with hm | hm
      · exact hmirrors m hm
      · cases mem_singleton.mp hm
        exact hinv'.mirrors
    · intro m hm
      rcases mem_append.mp hm with hm | hm
      · exact hloops m hm
      · cases mem_singleton.mp hm
        exact hl

def empty : State where
  graph := ⟨fun _ => none,fun _ => 0⟩
  mem := ⟨fun _ => ⟨none,nullEpoch,.init,0,0,0⟩,∅,[]⟩
  thread := ⟨none,[],[],0,0,1⟩
  epoch := initEpoch
  relations := ∅

theorem empty_inv : Inv empty where
  owns := by
    refine ⟨⟨?_,?_,?_,?_,?_⟩,?_,?_,?_⟩
    all_goals simp [empty,source,destination,payload,find]
    · rintro (v | e) a h <;> cases h
    · rintro (v | e) o' a h <;> cases h
  tidy := ⟨nodup_nil,by simp [empty]⟩
  epoch := by decide
  idle := ⟨rfl,rfl,rfl⟩

def rounds : List Act :=
  [.addVertex above 1 [],.addVertex above 2 [1,3],.addEdge above 1 2 7,.advance,
    .addEdge above 1 2 8,.removeVertex above 2]

theorem mirrors_iff_no_loop_rounds : ∃ ms s,
    Run (step .blocking) (fun s act => act.Permitted s) empty ms s ∧
      ms.map (·.act) = rounds ∧ ∀ m ∈ ms, Mirrors m.post := by
  obtain ⟨s,hplay⟩ : ∃ s, play (step .blocking) empty rounds = some s :=
    isSome_iff_exists.mp (by decide +kernel)
  obtain ⟨ms,run,hacts⟩ := Run.performed (fun s act => act.Permitted s) hplay
    (by simp [rounds,Act.Permitted])
  refine ⟨ms,s,run,hacts,(mirrors_iff_no_loop .blocking empty_inv run).mpr ?_⟩
  intro m hm
  have hcalls : ∀ act ∈ rounds, ¬act.loops := by simp [rounds,Act.loops]
  exact hcalls _ (hacts ▸ mem_map_of_mem hm)

/-- The relation of a loop waits, and the next operation registers it. -/
theorem loop_made_durable : ∃ s₁ s₂,
    step .blocking empty (.addEdge above 1 1 7) = some s₁ ∧ ¬Mirrors s₁ ∧
      step .blocking s₁ (.addVertex above 5 []) = some s₂ ∧ 1 ∈ s₂.relations ∧
      (s₂.mem.heap 1).epoch = initEpoch ∧ (s₂.mem.heap 1).blktype = .alloc ∧
      ¬s₂.graph.Present 1 := by
  obtain ⟨s₁,hs1,hrest⟩ : ∃ s₁, step .blocking empty (.addEdge above 1 1 7) = some s₁ ∧
      ((step .blocking s₁ (.addVertex above 5 [])).map fun s₂ => (decide (1 ∈ s₂.relations),
        (s₂.mem.heap 1).epoch,(s₂.mem.heap 1).blktype,decide (s₂.graph.Present 1))) =
        some (true,initEpoch,.alloc,false) :=
    map_eq_some_iff.mp (by decide +kernel)
  obtain ⟨s₂,hs2,hfacts⟩ := map_eq_some_iff.mp hrest
  simp only [Prod.mk.injEq,decide_eq_true_eq,decide_eq_false_iff_not] at hfacts
  have hloop : (Act.addEdge above 1 1 7).loops := rfl
  exact ⟨s₁,s₂,hs1,loop_not_mirrors empty_inv hloop hs1,hs2,hfacts⟩

end Montage.MontageGraph
