import Montage.Library.Runs
import Montage.MontageGraph.Integrity
import Mathlib.Algebra.BigOperators.Intervals
import Mathlib.Algebra.Order.BigOperators.Group.Finset

namespace Montage.MontageGraph.Recover
open Library Function List

/-- A `Vertex` payload: where it lies and its id. -/
structure Vertex where
  addr : Addr
  id : Nat

/-- What `recover` works on. The vectors list the recovered payloads in the order in which the
map of recovered blocks was walked, and payload `i` is handled by thread `i % recThd`. -/
structure Input where
  numVertices : Nat
  recThd : Nat
  vertexVector : List Vertex
  relationVector : List Relation

inductive Pc where
  | vertices (i : Nat)
  | barrier₁
  | scatter (i : Nat)
  -- the second `push_back` for relation `i`
  | scatterDest (i : Nat) (e : Relation)
  | sizes (tid size : Nat)
  | copies (tid size : Nat) (tpls : List Relation)
  | barrier₂ (tpls : List Relation)
  | sources (tpls rest : List Relation)
  | destinations (rest : List Relation)
  | done
  deriving DecidableEq

/-- `buffers p c` is the buffer that thread `p` fills for thread `c`. The program is `broken`
once it has written beyond `tpls` or followed a null pointer. -/
structure State where
  graph : Graph
  buffers : Nat → Nat → List Relation
  pc : Nat → Pc
  broken : Bool

variable (inp : Input)

def init : State where
  graph := ⟨fun _ => none,fun _ => 0⟩
  buffers := fun _ _ => []
  pc := fun t => .vertices t
  broken := false

def State.goto (s : State) (t : Nat) (pc : Pc) : State :=
  { s with pc := update s.pc t pc }

def State.pushBack (s : State) (p c : Nat) (e : Relation) : State :=
  { s with
    buffers := update s.buffers p (update (s.buffers p) c (s.buffers p c ++ [e])) }

def Pc.arrived₁ : Pc → Bool
  | .vertices _ => false
  | _ => true

def Pc.passed₁ : Pc → Bool
  | .vertices _ | .barrier₁ => false
  | _ => true

def Pc.arrived₂ : Pc → Bool
  | .barrier₂ _ | .sources _ _ | .destinations _ | .done => true
  | _ => false

/-- `std::sort` by one end of the relations. -/
def sortBy (key : Relation → Nat) (tpls : List Relation) : List Relation :=
  tpls.insertionSort fun r1 r2 => key r1 ≤ key r2

def step (s : State) (t : Nat) : Option State :=
  if s.broken ∨ inp.recThd ≤ t then none
  else match s.pc t with
  -- Recover vertexes
  | .vertices i =>
    match inp.vertexVector[i]? with
    | none => some (s.goto t .barrier₁)
    | some x =>
      if inp.numVertices ≤ x.id then some { s with broken := true }
      else if s.graph.Present x.id then some (s.goto t (.vertices (i + inp.recThd)))
      else some ({ s with graph := fresh s.graph x.id x.addr }.goto t (.vertices (i + inp.recThd)))
  | .barrier₁ =>
    if ∀ u < inp.recThd, (s.pc u).arrived₁ then some (s.goto t (.scatter t)) else none
  -- Recover relationships
  | .scatter i =>
    match inp.relationVector[i]? with
    | none => some (s.goto t (.sizes 0 0))
    | some e =>
      if inp.numVertices ≤ e.src ∨ inp.numVertices ≤ e.dest then
        some (s.goto t (.scatter (i + inp.recThd)))
      else if ¬s.graph.Present e.src ∨ ¬s.graph.Present e.dest then
        some (s.goto t (.scatter (i + inp.recThd)))
      else
        let s := s.pushBack t (e.src % inp.recThd) e
        if e.dest % inp.recThd ≠ e.src % inp.recThd then some (s.goto t (.scatterDest i e))
        else some (s.goto t (.scatter (i + inp.recThd)))
  | .scatterDest i e =>
    some ((s.pushBack t (e.dest % inp.recThd) e).goto t (.scatter (i + inp.recThd)))
  | .sizes tid size =>
    if tid < inp.recThd then
      some (s.goto t (.sizes (tid + 1) (size + (s.buffers tid t).length)))
    else some (s.goto t (.copies 0 size []))
  | .copies tid size tpls =>
    if tid < inp.recThd then
      -- std::copy does not look at the size of its target
      if size < (tpls ++ s.buffers tid t).length then some { s with broken := true }
      else some (s.goto t (.copies (tid + 1) size (tpls ++ s.buffers tid t)))
    else some (s.goto t (.barrier₂ tpls))
  | .barrier₂ tpls =>
    if ∀ u < inp.recThd, (s.pc u).arrived₂ then
      let tpls := sortBy Relation.src tpls
      some (s.goto t (.sources tpls tpls))
    else none
  | .sources tpls [] => some (s.goto t (.destinations (sortBy Relation.dest tpls)))
  | .sources tpls (r :: rest) =>
    if r.src % inp.recThd = t then
      if s.graph.Present r.src then
        let g := setSource s.graph r.src (emplace (source s.graph r.src) r.edge r).1
        some ({ s with graph := g }.goto t (.sources tpls rest))
      else some { s with broken := true }
    else some (s.goto t (.sources tpls rest))
  | .destinations [] => some (s.goto t .done)
  | .destinations (r :: rest) =>
    if r.src % inp.recThd = t then
      if s.graph.Present r.dest then
        let g := setDestination s.graph r.dest (emplace (destination s.graph r.dest) r.edge r).1
        some ({ s with graph := g }.goto t (.destinations rest))
      else some { s with broken := true }
    else some (s.goto t (.destinations rest))
  | .done => none

structure Describes : Prop where
  threads : 0 < inp.recThd
  ids : (inp.vertexVector.map Vertex.id).Nodup
  range : ∀ x ∈ inp.vertexVector, x.id < inp.numVertices
  edges : (inp.relationVector.map Relation.edge).Nodup
  ends : ∀ e ∈ inp.relationVector, e.src ∈ inp.vertexVector.map Vertex.id ∧
    e.dest ∈ inp.vertexVector.map Vertex.id

def entries (key : Relation → Nat) (v : Nat) (rs : List Relation) : Map :=
  (rs.filter fun e => key e = v).map fun e => (e.edge,e)

def expected (key : Relation → Nat) (v : Nat) : Map := entries key v inp.relationVector

/-- The graph is back: the vertices are the recovered ones, and each map holds each relation
once and nothing else. -/
structure Rebuilt (g : Graph) : Prop where
  vertices : ∀ v, g.Present v ↔ v ∈ inp.vertexVector.map Vertex.id
  sources : ∀ u, (source g u).Perm (expected inp Relation.src u)
  destinations : ∀ v, (destination g v).Perm (expected inp Relation.dest v)

def State.finished (s : State) : Prop := ∀ t < inp.recThd, s.pc t = .done

/-- Under every schedule the program stays within its vectors, and rebuilds the graph. -/
def Recovers : Prop :=
  ∀ ms s, Run (step inp) (fun _ _ => True) init ms s →
    s.broken = false ∧ (s.finished inp → Rebuilt inp s.graph)

/-- Both ends of each relation belong to the thread that scatters it. -/
def Aligned : Prop :=
  ∀ i e, inp.relationVector[i]? = some e →
    e.src % inp.recThd = i % inp.recThd ∧ e.dest % inp.recThd = i % inp.recThd

inductive Kind (inp : Input) (s : State) (t : Nat) : State → Prop
  | verticesEnd (here : s.pc t = .vertices i) (past : inp.vertexVector[i]? = none) :
      Kind inp s t (s.goto t .barrier₁)
  | outside (here : s.pc t = .vertices i) (item : inp.vertexVector[i]? = some x)
      (range : inp.numVertices ≤ x.id) : Kind inp s t { s with broken := true }
  | twice (here : s.pc t = .vertices i) (item : inp.vertexVector[i]? = some x)
      (present : s.graph.Present x.id) : Kind inp s t (s.goto t (.vertices (i + inp.recThd)))
  | vertex (here : s.pc t = .vertices i) (item : inp.vertexVector[i]? = some x)
      (absent : ¬s.graph.Present x.id) :
      Kind inp s t ({ s with graph := fresh s.graph x.id x.addr }.goto t
        (.vertices (i + inp.recThd)))
  | barrier₁ (here : s.pc t = .barrier₁) (all : ∀ u < inp.recThd, (s.pc u).arrived₁) :
      Kind inp s t (s.goto t (.scatter t))
  | scatterEnd (here : s.pc t = .scatter i) (past : inp.relationVector[i]? = none) :
      Kind inp s t (s.goto t (.sizes 0 0))
  | dangling (here : s.pc t = .scatter i) (item : inp.relationVector[i]? = some e)
      (bad : (inp.numVertices ≤ e.src ∨ inp.numVertices ≤ e.dest) ∨
        ¬s.graph.Present e.src ∨ ¬s.graph.Present e.dest) :
      Kind inp s t (s.goto t (.scatter (i + inp.recThd)))
  | scatter (here : s.pc t = .scatter i) (item : inp.relationVector[i]? = some e)
      (same : e.dest % inp.recThd = e.src % inp.recThd) :
      Kind inp s t ((s.pushBack t (e.src % inp.recThd) e).goto t (.scatter (i + inp.recThd)))
  | scatterSrc (here : s.pc t = .scatter i) (item : inp.relationVector[i]? = some e)
      (other : e.dest % inp.recThd ≠ e.src % inp.recThd) :
      Kind inp s t ((s.pushBack t (e.src % inp.recThd) e).goto t (.scatterDest i e))
  | scatterDest (here : s.pc t = .scatterDest i e) :
      Kind inp s t ((s.pushBack t (e.dest % inp.recThd) e).goto t (.scatter (i + inp.recThd)))
  | size (here : s.pc t = .sizes tid n) (more : tid < inp.recThd) :
      Kind inp s t (s.goto t (.sizes (tid + 1) (n + (s.buffers tid t).length)))
  | sizesEnd (here : s.pc t = .sizes tid n) (past : ¬tid < inp.recThd) :
      Kind inp s t (s.goto t (.copies 0 n []))
  | overrun (here : s.pc t = .copies tid n tpls) (more : tid < inp.recThd)
      (large : n < (tpls ++ s.buffers tid t).length) : Kind inp s t { s with broken := true }
  | copy (here : s.pc t = .copies tid n tpls) (more : tid < inp.recThd)
      (fits : ¬n < (tpls ++ s.buffers tid t).length) :
      Kind inp s t (s.goto t (.copies (tid + 1) n (tpls ++ s.buffers tid t)))
  | copiesEnd (here : s.pc t = .copies tid n tpls) (past : ¬tid < inp.recThd) :
      Kind inp s t (s.goto t (.barrier₂ tpls))
  | barrier₂ (here : s.pc t = .barrier₂ tpls) (all : ∀ u < inp.recThd, (s.pc u).arrived₂) :
      Kind inp s t (s.goto t (.sources (sortBy Relation.src tpls) (sortBy Relation.src tpls)))
  | source (here : s.pc t = .sources tpls (r :: rest)) (mine : r.src % inp.recThd = t)
      (present : s.graph.Present r.src) :
      Kind inp s t ({ s with
        graph := setSource s.graph r.src (emplace (source s.graph r.src) r.edge r).1 }.goto t
          (.sources tpls rest))
  | sourceOther (here : s.pc t = .sources tpls (r :: rest)) (other : r.src % inp.recThd ≠ t) :
      Kind inp s t (s.goto t (.sources tpls rest))
  | sourceNull (here : s.pc t = .sources tpls (r :: rest)) (absent : ¬s.graph.Present r.src) :
      Kind inp s t { s with broken := true }
  | sourcesEnd (here : s.pc t = .sources tpls []) :
      Kind inp s t (s.goto t (.destinations (sortBy Relation.dest tpls)))
  | destination (here : s.pc t = .destinations (r :: rest)) (mine : r.src % inp.recThd = t)
      (present : s.graph.Present r.dest) :
      Kind inp s t ({ s with
        graph := setDestination s.graph r.dest
          (emplace (destination s.graph r.dest) r.edge r).1 }.goto t (.destinations rest))
  | destinationOther (here : s.pc t = .destinations (r :: rest)) (other : r.src % inp.recThd ≠ t) :
      Kind inp s t (s.goto t (.destinations rest))
  | destinationNull (here : s.pc t = .destinations (r :: rest)) (absent : ¬s.graph.Present r.dest) :
      Kind inp s t { s with broken := true }
  | destinationsEnd (here : s.pc t = .destinations []) : Kind inp s t (s.goto t .done)

variable {inp} {s s' : State} {g g' : Graph} {t u v i : Nat} {pc pc' : Pc} {e r : Relation}

theorem step_kind (h : step inp s t = some s') :
    s.broken = false ∧ t < inp.recThd ∧ Kind inp s t s' := by
  unfold step at h
  split at h
  next => cases h
  next hguard =>
    rw [not_or,Bool.not_eq_true,not_le] at hguard
    refine ⟨hguard.1,hguard.2,?_⟩
    split at h
    next hpc =>
      split at h
      next hend => cases h; exact .verticesEnd hpc hend
      next hx =>
        split at h
        next hrange => cases h; exact .outside hpc hx hrange
        next =>
          split at h
          next hp => cases h; exact .twice hpc hx hp
          next hp => cases h; exact .vertex hpc hx hp
    next hpc =>
      split at h
      next hall => cases h; exact .barrier₁ hpc hall
      next => cases h
    next hpc =>
      split at h
      next hend => cases h; exact .scatterEnd hpc hend
      next he =>
        split at h
        next hbad => cases h; exact .dangling hpc he (.inl hbad)
        next =>
          split at h
          next hbad => cases h; exact .dangling hpc he (.inr hbad)
          next =>
            simp only at h
            split at h
            next hne => cases h; exact .scatterSrc hpc he hne
            next heq => cases h; exact .scatter hpc he (not_not.mp heq)
    next hpc => cases h; exact .scatterDest hpc
    next hpc =>
      split at h
      next hlt => cases h; exact .size hpc hlt
      next hge => cases h; exact .sizesEnd hpc hge
    next hpc =>
      split at h
      next hlt =>
        split at h
        next hlarge => cases h; exact .overrun hpc hlt hlarge
        next hfits => cases h; exact .copy hpc hlt hfits
      next hge => cases h; exact .copiesEnd hpc hge
    next hpc =>
      split at h
      next hall => cases h; exact .barrier₂ hpc hall
      next => cases h
    next hpc => cases h; exact .sourcesEnd hpc
    next hpc =>
      split at h
      next hmine =>
        split at h
        next hp => cases h; exact .source hpc hmine hp
        next hp => cases h; exact .sourceNull hpc hp
      next hother => cases h; exact .sourceOther hpc hother
    next hpc => cases h; exact .destinationsEnd hpc
    next hpc =>
      split at h
      next hmine =>
        split at h
        next hp => cases h; exact .destination hpc hmine hp
        next hp => cases h; exact .destinationNull hpc hp
      next hother => cases h; exact .destinationOther hpc hother
    next => cases h

theorem Pc.arrived_of_passed (h : pc.passed₁ = true) : pc.arrived₁ = true := by
  cases pc <;> first
    | rfl
    | cases h

def Loaded (inp : Input) (g : Graph) (t i : Nat) : Prop :=
  ∀ j x, inp.vertexVector[j]? = some x → j % inp.recThd = t → j < i → g.Present x.id

def Pc.Base (inp : Input) (g : Graph) (t : Nat) : Pc → Prop
  | .vertices i => i % inp.recThd = t ∧ Loaded inp g t i
  | .scatter i => Loaded inp g t inp.vertexVector.length ∧ i % inp.recThd = t
  | .scatterDest i e => Loaded inp g t inp.vertexVector.length ∧ i % inp.recThd = t ∧
      inp.relationVector[i]? = some e
  | _ => Loaded inp g t inp.vertexVector.length

structure Base (inp : Input) (s : State) : Prop where
  only : ∀ v, s.graph.Present v → v ∈ inp.vertexVector.map Vertex.id
  pcs : ∀ t < inp.recThd, (s.pc t).Base inp s.graph t
  passed : ∀ t < inp.recThd, (s.pc t).passed₁ → ∀ u < inp.recThd, (s.pc u).arrived₁

theorem Loaded.mono (h : Loaded inp g t i) (hg : ∀ v, g.Present v → g'.Present v) :
    Loaded inp g' t i := fun j x hx hj hlt => hg _ (h j x hx hj hlt)

theorem Pc.Base.mono (h : pc.Base inp g t) (hg : ∀ v, g.Present v → g'.Present v) :
    pc.Base inp g' t := by
  cases pc with
  | vertices => exact ⟨h.1,h.2.mono hg⟩
  | scatter | scatterDest => exact ⟨Loaded.mono h.1 hg,h.2⟩
  | _ => exact Loaded.mono h hg

theorem Pc.Base.loaded (h : pc.Base inp g t) (ha : pc.arrived₁ = true) :
    Loaded inp g t inp.vertexVector.length := by
  cases pc with
  | vertices => cases ha
  | scatter | scatterDest => exact h.1
  | _ => exact h

theorem Base.present (h : Base inp s) (hT : 0 < inp.recThd) (ht : t < inp.recThd)
    (hp : (s.pc t).passed₁ = true) (hv : v ∈ inp.vertexVector.map Vertex.id) :
    s.graph.Present v := by
  obtain ⟨x,hx,rfl⟩ := mem_map.mp hv
  obtain ⟨j,hj⟩ := mem_iff_getElem?.mp hx
  have hu := Nat.mod_lt j hT
  have hloaded := (h.pcs _ hu).loaded (h.passed t ht hp _ hu)
  exact hloaded j x hj rfl (List.getElem?_eq_some_iff.mp hj).1

theorem Base.move (h : Base inp s) (hpcs : s'.pc = update s.pc t pc')
    (hg : ∀ v, s.graph.Present v → s'.graph.Present v)
    (hg' : ∀ v, s'.graph.Present v → v ∈ inp.vertexVector.map Vertex.id)
    (hbase : pc'.Base inp s'.graph t) (harrived : (s.pc t).arrived₁ → pc'.arrived₁)
    (hpassed : pc'.passed₁ → ∀ u < inp.recThd, (s.pc u).arrived₁) : Base inp s' where
  only := hg'
  pcs := by
    rw [hpcs]
    exact (forall_update_iff s.pc fun u pc => u < inp.recThd → pc.Base inp s'.graph u).mpr
      ⟨fun _ => hbase,fun u _ hu => (h.pcs u hu).mono hg⟩
  passed := by
    -- whoever passes the barrier finds the others there, and nobody goes back
    have hstays : ∀ u < inp.recThd, (s.pc u).arrived₁ → (s'.pc u).arrived₁ := by
      rw [hpcs]
      exact (forall_update_iff s.pc fun u pc => u < inp.recThd → (s.pc u).arrived₁ → pc.arrived₁).mpr
        ⟨fun _ => harrived,fun _ _ _ ha => ha⟩
    intro w hw hpw u hu
    rw [hpcs] at hpw
    by_cases hwt : w = t
    · rw [hwt,update_self] at hpw
      exact hstays u hu (hpassed hpw u hu)
    · rw [update_of_ne hwt] at hpw
      exact hstays u hu (h.passed w hw hpw u hu)

theorem Base.goto (h : Base inp s) (hpcs : s'.pc = update s.pc t pc')
    (hg : ∀ v, s'.graph.Present v ↔ s.graph.Present v)
    (hbase : pc'.Base inp s.graph t) (harrived : (s.pc t).arrived₁ → pc'.arrived₁)
    (hpassed : pc'.passed₁ → ∀ u < inp.recThd, (s.pc u).arrived₁) : Base inp s' :=
  h.move hpcs (fun v => (hg v).mpr) (fun v hv => h.only v ((hg v).mp hv))
    (hbase.mono fun v => (hg v).mpr) harrived hpassed

theorem round_eq {T j : Nat} (hmod : j % T = i % T) (hle : i ≤ j) (hlt : j < i + T) : j = i := by
  have hzero := Nat.sub_mod_eq_zero_of_mod_eq hmod
  rw [Nat.mod_eq_of_lt (by omega)] at hzero
  omega

theorem Loaded.next (h : Loaded inp g t i) (hi : i % inp.recThd = t)
    (hx : ∀ x, inp.vertexVector[i]? = some x → g.Present x.id) :
    Loaded inp g t (i + inp.recThd) := by
  intro j x hj hmod hlt
  by_cases hji : j < i
  · exact h j x hj hmod hji
  · obtain rfl := round_eq (hmod.trans hi.symm) (not_lt.mp hji) hlt
    exact hx x hj

theorem Loaded.all (h : Loaded inp g t i) (hend : inp.vertexVector[i]? = none) :
    Loaded inp g t inp.vertexVector.length := by
  intro j x hj hmod hlt
  exact h j x hj hmod (lt_of_lt_of_le hlt (List.getElem?_eq_none_iff.mp hend))

theorem init_base (inp : Input) : Base inp init where
  only := fun v hv => absurd rfl hv
  pcs := by
    intro t ht
    refine ⟨Nat.mod_eq_of_lt ht,?_⟩
    intro j x hj hmod hlt
    rw [Nat.mod_eq_of_lt (lt_trans hlt ht)] at hmod
    omega
  passed := fun t _ hp => by cases hp

theorem Base.later (h : Base inp s) (ht : t < inp.recThd) (here : s.pc t = pc)
    (hpcs : s'.pc = update s.pc t pc')
    (hg : ∀ v, s'.graph.Present v ↔ s.graph.Present v) (hp : pc.passed₁ = true)
    (hbase : pc'.Base inp s.graph t) (hp' : pc'.passed₁ = true) : Base inp s' :=
  h.goto hpcs hg hbase (fun _ => Pc.arrived_of_passed hp') fun _ => h.passed t ht (here ▸ hp)

theorem kind_base (h : Base inp s) (ht : t < inp.recThd) (hk : Kind inp s t s') : Base inp s' := by
  have hpc := h.pcs t ht
  have hsame : ∀ v, s.graph.Present v ↔ s.graph.Present v := fun v => .rfl
  cases hk with
  | verticesEnd here past =>
    rw [here] at hpc
    exact h.goto rfl hsame (hpc.2.all past) (fun _ => rfl) (fun hp => by cases hp)
  | outside | overrun | sourceNull | destinationNull => exact ⟨h.only,h.pcs,h.passed⟩
  | twice here item present =>
    rw [here] at hpc
    refine h.goto rfl hsame ⟨by rw [Nat.add_mod_right]; exact hpc.1,hpc.2.next hpc.1 ?_⟩
      (fun ha => by rw [here] at ha; cases ha) (fun hp => by cases hp)
    intro y hy
    obtain rfl := Option.some.inj (hy.symm.trans item)
    exact present
  | @vertex i x here item absent =>
    rw [here] at hpc
    have hgrow : ∀ v, s.graph.Present v → (fresh s.graph x.id x.addr).Present v := fun v hv =>
      (present_fresh _).mpr (.inr hv)
    refine h.move rfl hgrow ?_ ⟨by rw [Nat.add_mod_right]; exact hpc.1,
        (hpc.2.mono hgrow).next hpc.1 ?_⟩
      (fun ha => by rw [here] at ha; cases ha) (fun hp => by cases hp)
    · intro v hv
      rcases (present_fresh _).mp hv with rfl | hv
      · exact mem_map_of_mem (mem_of_getElem? item)
      · exact h.only v hv
    · intro y hy
      obtain rfl := Option.some.inj (hy.symm.trans item)
      exact (present_fresh _).mpr (.inl rfl)
  | barrier₁ here all =>
    rw [here] at hpc
    exact h.goto rfl hsame ⟨hpc,Nat.mod_eq_of_lt ht⟩ (fun _ => rfl) fun _ => all
  | scatterEnd here =>
    rw [here] at hpc
    exact h.later ht here rfl hsame rfl hpc.1 rfl
  | dangling here | scatter here =>
    rw [here] at hpc
    exact h.later ht here rfl hsame rfl ⟨hpc.1,by rw [Nat.add_mod_right]; exact hpc.2⟩ rfl
  | scatterSrc here item =>
    rw [here] at hpc
    exact h.later ht here rfl hsame rfl ⟨hpc.1,hpc.2,item⟩ rfl
  | scatterDest here =>
    rw [here] at hpc
    exact h.later ht here rfl hsame rfl ⟨hpc.1,by rw [Nat.add_mod_right]; exact hpc.2.1⟩ rfl
  | source here =>
    rw [here] at hpc
    exact h.later ht here rfl (fun v => present_set_source) rfl hpc rfl
  | destination here =>
    rw [here] at hpc
    exact h.later ht here rfl (fun v => present_set_destination) rfl hpc rfl
  | size here | sizesEnd here | copy here | copiesEnd here | barrier₂ here | sourceOther here
  | sourcesEnd here | destinationOther here | destinationsEnd here =>
    rw [here] at hpc
    exact h.later ht here rfl hsame rfl hpc rfl

def items (inp : Input) (t n : Nat) : List Relation :=
  (List.range n).filterMap fun j => if j % inp.recThd = t then inp.relationVector[j]? else none

def mine (inp : Input) (t : Nat) : List Relation := items inp t inp.relationVector.length

theorem mem_items {n : Nat} :
    e ∈ items inp t n ↔ ∃ j < n, j % inp.recThd = t ∧ inp.relationVector[j]? = some e := by
  simp only [items,mem_filterMap,mem_range]
  constructor
  · rintro ⟨j,hj,he⟩
    split at he
    next hmod => exact ⟨j,hj,hmod,he⟩
    next => cases he
  · rintro ⟨j,hj,hmod,he⟩
    exact ⟨j,hj,by rw [if_pos hmod,he]⟩

theorem mem_mine : e ∈ mine inp t ↔ ∃ j, j % inp.recThd = t ∧ inp.relationVector[j]? = some e := by
  rw [mine,mem_items]
  refine exists_congr fun j => ⟨And.right,fun h => ⟨?_,h⟩⟩
  exact (List.getElem?_eq_some_iff.mp h.2).1

theorem items_append {n : Nat} (k : Nat) (h : ∀ j, n ≤ j → j < n + k → j % inp.recThd = t →
    inp.relationVector[j]? = none) : items inp t (n + k) = items inp t n := by
  induction k with
  | zero => rfl
  | succ k ih =>
    have hlast : (if (n + k) % inp.recThd = t then inp.relationVector[n + k]? else none) = none := by
      split
      next hmod => exact h _ (Nat.le_add_right n k) (by omega) hmod
      next => rfl
    have hrest := ih fun j hle hlt => h j hle (by omega)
    rw [items,← Nat.add_assoc,range_succ,filterMap_append,← items,hrest]
    simp [hlast]

theorem items_next (hi : i % inp.recThd = t) (hT : 0 < inp.recThd)
    (he : inp.relationVector[i]? = some e) :
    items inp t (i + inp.recThd) = items inp t i ++ [e] := by
  have hone : items inp t (i + 1) = items inp t i ++ [e] := by
    rw [items,range_succ,filterMap_append,← items]
    simp [hi,he]
  have hrest : items inp t (i + 1 + (inp.recThd - 1)) = items inp t (i + 1) := by
    refine items_append _ fun j hle hlt hmod => ?_
    have := round_eq (hmod.trans hi.symm) (by omega) (by omega)
    omega
  rw [← hone,← hrest]
  congr 1
  omega

theorem items_all (hend : inp.relationVector[i]? = none) : items inp t i = mine inp t := by
  have hle := List.getElem?_eq_none_iff.mp hend
  have hrest : items inp t (inp.relationVector.length + (i - inp.relationVector.length)) = _ :=
    items_append _ fun j hj _ _ => List.getElem?_eq_none_iff.mpr hj
  rw [mine,← hrest]
  congr 1
  omega

theorem Describes.inside (hd : Describes inp) (he : e ∈ inp.relationVector) :
    e.src < inp.numVertices ∧ e.dest < inp.numVertices := by
  obtain ⟨hsrc,hdest⟩ := hd.ends e he
  obtain ⟨x,hx,hxs⟩ := mem_map.mp hsrc
  obtain ⟨y,hy,hyd⟩ := mem_map.mp hdest
  exact ⟨hxs ▸ hd.range x hx,hyd ▸ hd.range y hy⟩

theorem Base.ends (h : Base inp s) (hd : Describes inp) (ht : t < inp.recThd)
    (hp : (s.pc t).passed₁ = true) (he : e ∈ inp.relationVector) :
    s.graph.Present e.src ∧ s.graph.Present e.dest :=
  ⟨h.present hd.threads ht hp (hd.ends e he).1,h.present hd.threads ht hp (hd.ends e he).2⟩

theorem Describes.relations_nodup (hd : Describes inp) : inp.relationVector.Nodup :=
  Nodup.of_map _ hd.edges

theorem mine_nodup (hd : Describes inp) : (mine inp t).Nodup := by
  refine nodup_range.filterMap ?_
  intro j j' e hj hj'
  split at hj <;> split at hj' <;> simp only [Option.mem_def,reduceCtorEq] at hj hj'
  obtain ⟨hlt,he⟩ := List.getElem?_eq_some_iff.mp hj
  obtain ⟨hlt',he'⟩ := List.getElem?_eq_some_iff.mp hj'
  exact (hd.relations_nodup.getElem_inj_iff).mp (he.trans he'.symm)

def Pc.toSource (inp : Input) (t : Nat) : Pc → List Relation
  | .sources _ rest => rest
  | .destinations _ | .done => []
  | _ => mine inp t

def Pc.toDestination (inp : Input) (t : Nat) : Pc → List Relation
  | .destinations rest => rest
  | .done => []
  | _ => mine inp t

theorem entries_mine (hd : Describes inp) (key : Relation → Nat)
    (hkey : ∀ i e, inp.relationVector[i]? = some e → key e % inp.recThd = i % inp.recThd) (v : Nat) :
    (entries key v (mine inp (v % inp.recThd))).Perm (expected inp key v) := by
  refine List.Perm.map _ ((perm_ext_iff_of_nodup ((mine_nodup hd).filter _)
    (hd.relations_nodup.filter _)).mpr fun e => ?_)
  simp only [mem_filter,decide_eq_true_eq,mem_mine]
  constructor
  · rintro ⟨⟨j,-,hj⟩,hv⟩
    exact ⟨mem_of_getElem? hj,hv⟩
  · rintro ⟨he,rfl⟩
    obtain ⟨j,hj⟩ := mem_iff_getElem?.mp he
    exact ⟨⟨j,(hkey j e hj).symm,hj⟩,rfl⟩

def Pc.Inv (inp : Input) (buf : List Relation) (t : Nat) : Pc → Prop
  | .vertices _ | .barrier₁ => buf = []
  | .scatter i => buf = items inp t i
  | .scatterDest _ _ => False
  | .sizes tid size => buf = mine inp t ∧ size = if t < tid then (mine inp t).length else 0
  | .copies tid size tpls => buf = mine inp t ∧ size = (mine inp t).length ∧
      tpls = if t < tid then mine inp t else []
  | .barrier₂ tpls => tpls = mine inp t
  | .sources tpls rest => tpls.Perm (mine inp t) ∧ ∀ r ∈ rest, r ∈ mine inp t
  | .destinations rest => ∀ r ∈ rest, r ∈ mine inp t
  | .done => True

/-- The run of an aligned input: no thread has anything for another one, and the maps hold what
they should but for what is still to come. -/
structure Inv (inp : Input) (s : State) : Prop where
  whole : s.broken = false
  base : Base inp s
  others : ∀ p c, p ≠ c → s.buffers p c = []
  pcs : ∀ t < inp.recThd, (s.pc t).Inv inp (s.buffers t t) t
  sources : ∀ u, (source s.graph u ++ entries Relation.src u
    ((s.pc (u % inp.recThd)).toSource inp (u % inp.recThd))).Perm (expected inp Relation.src u)
  destinations : ∀ v, (destination s.graph v ++ entries Relation.dest v
    ((s.pc (v % inp.recThd)).toDestination inp (v % inp.recThd))).Perm
      (expected inp Relation.dest v)

theorem init_inv (hd : Describes inp) (ha : Aligned inp) : Inv inp init where
  whole := rfl
  base := init_base inp
  others := fun _ _ _ => rfl
  pcs := fun _ _ => rfl
  sources := fun u => entries_mine hd _ (fun i e he => (ha i e he).1) u
  destinations := fun v => entries_mine hd _ (fun i e he => (ha i e he).2) v

theorem entries_perm {key : Relation → Nat} {rs rs' : List Relation} (h : rs.Perm rs') :
    (entries key v rs).Perm (entries key v rs') := (h.filter _).map _

/-- At one end, the maps hold what they should but for what the threads still have to do. -/
def Pending (inp : Input) (key : Relation → Nat) (todo : Nat → Pc → List Relation) (m : Nat → Map)
    (pcs : Nat → Pc) : Prop :=
  ∀ v, (m v ++ entries key v (todo (v % inp.recThd) (pcs (v % inp.recThd)))).Perm
    (expected inp key v)

variable {key : Relation → Nat} {todo : Nat → Pc → List Relation} {m m' : Nat → Map}
  {tpls rest : List Relation}

theorem Pending.at (h : Pending inp key todo m s.pc) (here : s.pc t = pc)
    (hv : v % inp.recThd = t) : (m v ++ entries key v (todo t pc)).Perm (expected inp key v) := by
  have hold := h v
  rwa [hv,here] at hold

theorem Pending.move (h : Pending inp key todo m s.pc) (hpcs : s'.pc = update s.pc t pc')
    (hm : ∀ v, v % inp.recThd ≠ t → m' v = m v) (hown : ∀ v, v % inp.recThd = t →
      (m' v ++ entries key v (todo t pc')).Perm (expected inp key v)) :
    Pending inp key todo m' s'.pc := by
  intro v
  rw [hpcs]
  by_cases hv : v % inp.recThd = t
  · rw [hv,update_self]
    exact hown v hv
  · rw [update_of_ne hv,hm v hv]
    exact h v

theorem Pending.keep (h : Pending inp key todo m s.pc) (here : s.pc t = pc)
    (hpcs : s'.pc = update s.pc t pc') (hm : ∀ v, m' v = m v) (hperm : (todo t pc').Perm (todo t pc)) :
    Pending inp key todo m' s'.pc := by
  refine h.move hpcs (fun v _ => hm v) fun v hv => ?_
  rw [hm]
  exact ((entries_perm hperm).append_left _).trans (h.at here hv)

theorem entries_self :
    entries key (key r) (r :: rest) = (r.edge,r) :: entries key (key r) rest := by
  simp [entries]

theorem entries_other (h : v ≠ key r) :
    entries key v (r :: rest) = entries key v rest := by
  simp [entries,Ne.symm h]

theorem emplace_expected {m : Map} (hd : Describes inp)
    (hperm : (m ++ entries key (key r) (r :: rest)).Perm (expected inp key (key r))) :
    (emplace m r.edge r).1 = m ++ [(r.edge,r)] := by
  have hkeys : ((expected inp key (key r)).map Prod.fst).Nodup := by
    have hsub : ((inp.relationVector.filter fun e => key e = key r).map Relation.edge).Nodup :=
      hd.edges.sublist (filter_sublist.map _)
    simpa [expected,entries,map_map,Function.comp_def] using hsub
  have hnodup := ((hperm.map Prod.fst).nodup_iff).mpr hkeys
  rw [entries_self,map_append,map_cons] at hnodup
  have hnew : hasRelation m r.edge = false := by
    rw [Bool.eq_false_iff]
    intro hold
    obtain ⟨x,hx⟩ := hasRelation_iff.mp hold
    have hmem : r.edge ∈ m.map Prod.fst := mem_map.mpr ⟨_,hx,rfl⟩
    exact (nodup_append.mp hnodup).2.2 _ hmem _ mem_cons_self rfl
  rw [emplace_new hnew]

/-- A thread that puts the next of its relations into the map of its end. -/
theorem Pending.emplaced (h : Pending inp key todo m s.pc) (hd : Describes inp) (here : s.pc t = pc)
    (hpcs : s'.pc = update s.pc t pc') (hmine : key r % inp.recThd = t)
    (hold : todo t pc = r :: rest) (hnew : todo t pc' = rest)
    (hself : m' (key r) = (emplace (m (key r)) r.edge r).1) (hother : ∀ v, v ≠ key r → m' v = m v) :
    Pending inp key todo m' s'.pc := by
  refine h.move hpcs (fun v hv => hother v fun he => hv (he ▸ hmine)) fun v hv => ?_
  have hperm := h.at here hv
  rw [hold] at hperm
  rw [hnew]
  by_cases heq : v = key r
  · subst heq
    rw [hself,emplace_expected hd hperm]
    rw [entries_self] at hperm
    simpa using hperm
  · rw [entries_other heq] at hperm
    rw [hother v heq]
    exact hperm

theorem mine_aligned (ha : Aligned inp) (hr : r ∈ mine inp t) :
    r.src % inp.recThd = t ∧ r.dest % inp.recThd = t := by
  obtain ⟨j,rfl,hj⟩ := mem_mine.mp hr
  exact ha j r hj

theorem mine_present (hd : Describes inp) (hb : Base inp s) (ht : t < inp.recThd)
    (hp : (s.pc t).passed₁ = true) (hr : r ∈ mine inp t) :
    s.graph.Present r.src ∧ s.graph.Present r.dest := by
  obtain ⟨j,-,hj⟩ := mem_mine.mp hr
  exact hb.ends hd ht hp (mem_of_getElem? hj)

theorem sort_by_perm (key : Relation → Nat) (tpls : List Relation) : (sortBy key tpls).Perm tpls :=
  perm_insertionSort _ tpls

theorem push_back_other (s : State) (t : Nat) (e : Relation) {p c : Nat} (h : p ≠ t ∨ c ≠ t) :
    (s.pushBack t t e).buffers p c = s.buffers p c := by
  unfold State.pushBack
  by_cases hp : p = t
  · subst hp
    simp [Or.resolve_left h (not_not.mpr rfl)]
  · simp [hp]

section
variable (h : Inv inp s)
include h

theorem Inv.pending_sources :
    Pending inp Relation.src (Pc.toSource inp) (source s.graph) s.pc := h.sources

theorem Inv.pending_destinations :
    Pending inp Relation.dest (Pc.toDestination inp) (destination s.graph) s.pc := h.destinations

theorem Inv.goto (hb : Base inp s') (hpcs : s'.pc = update s.pc t pc')
    (hwhole : s'.broken = false) (hbuffers : ∀ p c, (p ≠ t ∨ c ≠ t) → s'.buffers p c = s.buffers p c)
    (hpc : pc'.Inv inp (s'.buffers t t) t)
    (hs : Pending inp Relation.src (Pc.toSource inp) (source s'.graph) s'.pc)
    (hd : Pending inp Relation.dest (Pc.toDestination inp) (destination s'.graph) s'.pc) :
    Inv inp s' where
  whole := hwhole
  base := hb
  others := by
    intro p c hpc
    by_cases hp : p = t
    · rw [hbuffers p c (.inr fun hc => hpc (hp.trans hc.symm))]
      exact h.others p c hpc
    · rw [hbuffers p c (.inl hp)]
      exact h.others p c hpc
  pcs := by
    intro u hu
    rw [hpcs]
    by_cases hut : u = t
    · rw [hut,update_self]
      exact hpc
    · rw [update_of_ne hut,hbuffers u u (.inl hut)]
      exact h.pcs u hu
  sources := hs
  destinations := hd

theorem Inv.keep (here : s.pc t = pc) (hb : Base inp s')
    (hpcs : s'.pc = update s.pc t pc') (hwhole : s'.broken = false)
    (hbuffers : ∀ p c, (p ≠ t ∨ c ≠ t) → s'.buffers p c = s.buffers p c)
    (hsource : ∀ u, source s'.graph u = source s.graph u)
    (hdest : ∀ v, destination s'.graph v = destination s.graph v)
    (hpc : pc'.Inv inp (s'.buffers t t) t) (hs : (pc'.toSource inp t).Perm (pc.toSource inp t))
    (hd : (pc'.toDestination inp t).Perm (pc.toDestination inp t)) : Inv inp s' :=
  h.goto hb hpcs hwhole hbuffers hpc (h.pending_sources.keep here hpcs hsource hs)
    (h.pending_destinations.keep here hpcs hdest hd)

theorem Inv.source_step (hd : Describes inp) (hb : Base inp s')
    (here : s.pc t = .sources tpls (r :: rest)) (ht : t < inp.recThd)
    (hmine : r.src % inp.recThd = t) (hp : s.graph.Present r.src)
    (hs' : s' = { s with
      graph := setSource s.graph r.src (emplace (source s.graph r.src) r.edge r).1 }.goto t
        (.sources tpls rest)) : Inv inp s' := by
  subst hs'
  have hpc := h.pcs t ht
  rw [here] at hpc
  exact h.goto hb rfl h.whole (fun _ _ _ => rfl)
    ⟨hpc.1,fun x hx => hpc.2 x (mem_cons_of_mem _ hx)⟩
    (h.pending_sources.emplaced hd here rfl hmine rfl rfl (source_set_source hp)
      fun _ => source_set_source_other)
    (h.pending_destinations.keep here rfl (fun _ => destination_set_source) .rfl)

theorem Inv.destination_step (hd : Describes inp) (hb : Base inp s')
    (here : s.pc t = .destinations (r :: rest)) (ht : t < inp.recThd)
    (hmine : r.dest % inp.recThd = t) (hp : s.graph.Present r.dest)
    (hs' : s' = { s with
      graph := setDestination s.graph r.dest
        (emplace (destination s.graph r.dest) r.edge r).1 }.goto t (.destinations rest)) :
    Inv inp s' := by
  subst hs'
  have hpc := h.pcs t ht
  rw [here] at hpc
  exact h.goto hb rfl h.whole (fun _ _ _ => rfl) (fun x hx => hpc x (mem_cons_of_mem _ hx))
    (h.pending_sources.keep here rfl (fun _ => source_set_destination) .rfl)
    (h.pending_destinations.emplaced hd here rfl hmine rfl rfl (destination_set_destination hp)
      fun _ => destination_set_destination_other)

theorem Inv.stay (here : s.pc t = pc) (hb : Base inp (s.goto t pc'))
    (hpc : pc'.Inv inp (s.buffers t t) t) (hs : (pc'.toSource inp t).Perm (pc.toSource inp t))
    (hd : (pc'.toDestination inp t).Perm (pc.toDestination inp t)) : Inv inp (s.goto t pc') :=
  h.keep here hb rfl h.whole (fun _ _ _ => rfl) (fun _ => rfl) (fun _ => rfl) hpc hs hd

theorem Inv.copied {tid n : Nat} (ht : t < inp.recThd) (here : s.pc t = .copies tid n tpls) :
    tpls ++ s.buffers tid t = if t < tid + 1 then mine inp t else [] := by
  have hpc := h.pcs t ht
  rw [here] at hpc
  rw [hpc.2.2]
  by_cases htid : tid = t
  · rw [htid,hpc.1]
    simp
  · rw [h.others tid t htid]
    have hiff : t < tid ↔ t < tid + 1 := by omega
    simp [hiff]

theorem kind_inv (hd : Describes inp) (ha : Aligned inp) (ht : t < inp.recThd)
    (hk : Kind inp s t s') : Inv inp s' := by
  have hb := kind_base h.base ht hk
  have hpc := h.pcs t ht
  have hbase := h.base.pcs t ht
  cases hk with
  | outside _ item range =>
    exact absurd (hd.range _ (mem_of_getElem? item)) (not_lt.mpr range)
  | verticesEnd here | twice here =>
    rw [here] at hpc
    exact h.stay here hb hpc .rfl .rfl
  | vertex here _ absent =>
    rw [here] at hpc
    exact h.keep here hb rfl h.whole (fun _ _ _ => rfl) (source_fresh absent _)
      (destination_fresh absent _) hpc .rfl .rfl
  | barrier₁ here =>
    rw [here] at hpc
    refine h.stay here hb ?_ .rfl .rfl
    refine hpc.trans (eq_nil_iff_forall_not_mem.mpr fun e he => ?_).symm
    obtain ⟨j,hj,hmod,-⟩ := mem_items.mp he
    rw [Nat.mod_eq_of_lt (lt_trans hj ht)] at hmod
    exact absurd hmod (ne_of_lt hj)
  | scatterEnd here past =>
    rw [here] at hpc
    exact h.stay here hb ⟨hpc.trans (items_all past),by simp⟩ .rfl .rfl
  | @dangling i e here item bad =>
    exfalso
    have he := mem_of_getElem? item
    have hpresent := h.base.ends hd ht (by rw [here]; rfl) he
    rcases bad with (hsrc | hdest) | hsrc | hdest
    · exact absurd (hd.inside he).1 (not_lt.mpr hsrc)
    · exact absurd (hd.inside he).2 (not_lt.mpr hdest)
    · exact hsrc hpresent.1
    · exact hdest hpresent.2
  | @scatter i e here item same =>
    rw [here] at hpc hbase
    have hsrc : e.src % inp.recThd = t := (ha i e item).1.trans hbase.2
    rw [hsrc] at hb ⊢
    refine h.keep here hb rfl h.whole (fun p c => push_back_other s t e) (fun _ => rfl)
      (fun _ => rfl) ?_ .rfl .rfl
    rw [Pc.Inv,items_next hbase.2 hd.threads item,← hpc]
    simp [State.goto,State.pushBack]
  | @scatterSrc i e here item other => exact absurd ((ha i e item).2.trans (ha i e item).1.symm) other
  | scatterDest here =>
    rw [here] at hpc
    cases hpc
  | @size tid n here more =>
    rw [here] at hpc
    refine h.stay here hb ⟨hpc.1,?_⟩ .rfl .rfl
    rw [hpc.2]
    by_cases htid : tid = t
    · rw [htid,hpc.1]
      simp
    · rw [h.others tid t htid]
      have hiff : t < tid ↔ t < tid + 1 := by omega
      simp [hiff]
  | sizesEnd here past =>
    rw [here] at hpc
    have hlt := lt_of_lt_of_le ht (not_lt.mp past)
    exact h.stay here hb ⟨hpc.1,hpc.2.trans (if_pos hlt),by simp⟩ .rfl .rfl
  | overrun here _ large =>
    exfalso
    rw [h.copied ht here] at large
    rw [here] at hpc
    rw [hpc.2.1] at large
    split at large
    next => exact lt_irrefl _ large
    next => exact Nat.not_lt_zero _ large
  | copy here =>
    rw [here] at hpc
    exact h.stay here hb ⟨hpc.1,hpc.2.1,h.copied ht here⟩ .rfl .rfl
  | copiesEnd here past =>
    rw [here] at hpc
    have hlt := lt_of_lt_of_le ht (not_lt.mp past)
    exact h.stay here hb (hpc.2.2.trans (if_pos hlt)) .rfl .rfl
  | barrier₂ here =>
    rw [here] at hpc
    obtain rfl := hpc
    have hperm := sort_by_perm Relation.src (mine inp t)
    exact h.stay here hb ⟨hperm,fun r hr => hperm.mem_iff.mp hr⟩ hperm .rfl
  | source here own present => exact h.source_step hd hb here ht own present rfl
  | sourceOther here other =>
    rw [here] at hpc
    exact absurd (mine_aligned ha (hpc.2 _ mem_cons_self)).1 other
  | sourceNull here absent =>
    rw [here] at hpc
    exact absurd (mine_present hd h.base ht (by rw [here]; rfl) (hpc.2 _ mem_cons_self)).1 absent
  | sourcesEnd here =>
    rw [here] at hpc
    have hperm := (sort_by_perm Relation.dest _).trans hpc.1
    exact h.stay here hb (fun r hr => hperm.mem_iff.mp hr) .rfl hperm
  | destination here _ present =>
    rw [here] at hpc
    have hdest := (mine_aligned ha (hpc _ mem_cons_self)).2
    exact h.destination_step hd hb here ht hdest present rfl
  | destinationOther here other =>
    rw [here] at hpc
    exact absurd (mine_aligned ha (hpc _ mem_cons_self)).1 other
  | destinationNull here absent =>
    rw [here] at hpc
    exact absurd (mine_present hd h.base ht (by rw [here]; rfl) (hpc _ mem_cons_self)).2 absent
  | destinationsEnd here =>
    rw [here] at hpc
    exact h.stay here hb trivial .rfl .rfl

theorem Inv.rebuilt (hd : Describes inp) (hdone : s.finished inp) : Rebuilt inp s.graph where
  vertices := by
    intro v
    refine ⟨h.base.only v,fun hv => ?_⟩
    exact h.base.present hd.threads hd.threads (by rw [hdone 0 hd.threads]; rfl) hv
  sources := by
    intro u
    have hold := h.sources u
    rw [hdone _ (Nat.mod_lt u hd.threads)] at hold
    simpa [Pc.toSource,entries] using hold
  destinations := by
    intro v
    have hold := h.destinations v
    rw [hdone _ (Nat.mod_lt v hd.threads)] at hold
    simpa [Pc.toDestination,entries] using hold

end

theorem aligned_recovers (hd : Describes inp) (ha : Aligned inp) : Recovers inp := by
  intro ms s run
  have hinv := run.invariant (Inv inp) (init_inv hd ha) fun _ _ _ h _ hnext =>
    kind_inv h hd ha (step_kind hnext).2.1 (step_kind hnext).2.2
  exact ⟨hinv.whole,hinv.rebuilt hd⟩

def Reaches (inp : Input) (s s' : State) : Prop := ∃ ts, play (step inp) s ts = some s'

theorem Reaches.refl (s : State) : Reaches inp s s := ⟨[],rfl⟩

theorem Reaches.step {s'' : State} (hs : Recover.step inp s t = some s') (h : Reaches inp s' s'') :
    Reaches inp s s'' := by
  obtain ⟨ts,hts⟩ := h
  exact ⟨t :: ts,by simp [play,hs,hts]⟩

theorem Reaches.trans {s'' : State} (h : Reaches inp s s') (h' : Reaches inp s' s'') :
    Reaches inp s s'' := by
  obtain ⟨ts,hts⟩ := h
  obtain ⟨ts',hts'⟩ := h'
  exact ⟨ts ++ ts',by rw [play_append,hts]; exact hts'⟩

theorem Reaches.base (h : Reaches inp s s') (hb : Base inp s) : Base inp s' := by
  obtain ⟨ts,hts⟩ := h
  exact play_invariant hts (Base inp) hb fun _ _ _ h hnext =>
    kind_base h (step_kind hnext).2.1 (step_kind hnext).2.2

/-- `s'` differs from `s` in where thread `t` is, and in what was left open. -/
structure Alone (s s' : State) (t : Nat) (pc : Pc) : Prop where
  pc : s'.pc = update s.pc t pc
  whole : s'.broken = false
  buffers : ∀ p, p ≠ t → s'.buffers p = s.buffers p

theorem Alone.trans {s'' : State} (h : Alone s s' t pc) (h' : Alone s' s'' t pc') :
    Alone s s'' t pc' where
  pc := by rw [h'.pc,h.pc,update_idem]
  whole := h'.whole
  buffers := fun p hp => (h'.buffers p hp).trans (h.buffers p hp)

theorem alone_goto (hw : s.broken = false) : Alone s (s.goto t pc) t pc :=
  ⟨rfl,hw,fun _ _ => rfl⟩

theorem Alone.here (h : Alone s s' t pc) : s'.pc t = pc := by rw [h.pc,update_self]

theorem vertices_reach (hd : Describes inp) (ht : t < inp.recThd) (hw : s.broken = false)
    (hpc : s.pc t = .vertices i) :
    ∃ s', Reaches inp s s' ∧ Alone s s' t .barrier₁ ∧ s'.buffers = s.buffers := by
  generalize hn : inp.vertexVector.length - i = n
  induction n using Nat.strongRecOn generalizing s i with
  | ind n ih =>
    cases hx : inp.vertexVector[i]? with
    | none =>
      refine ⟨s.goto t .barrier₁,.step (t := t) ?_ (.refl _),alone_goto hw,rfl⟩
      simp [step,hw,ht,hpc,hx]
    | some x =>
      have hlt := (List.getElem?_eq_some_iff.mp hx).1
      have hrange := hd.range x (mem_of_getElem? hx)
      have hthreads := hd.threads
      obtain ⟨s1,hs1,ha1,hb1⟩ : ∃ s1, step inp s t = some s1 ∧
          Alone s s1 t (.vertices (i + inp.recThd)) ∧ s1.buffers = s.buffers := by
        by_cases hp : s.graph.Present x.id
        · exact ⟨s.goto t (.vertices (i + inp.recThd)),by simp [step,hw,ht,hpc,hx,hrange,hp],
            alone_goto hw,rfl⟩
        · exact ⟨{ s with graph := fresh s.graph x.id x.addr }.goto t (.vertices (i + inp.recThd)),
            by simp [step,hw,ht,hpc,hx,hrange,hp],⟨rfl,hw,fun _ _ => rfl⟩,rfl⟩
      obtain ⟨s',hr,ha,hb⟩ := ih _ (by omega) ha1.whole ha1.here rfl
      exact ⟨s',.step hs1 hr,ha1.trans ha,hb.trans hb1⟩

theorem barrier_reach (hd : Describes inp) (n : Nat) (hn : n ≤ inp.recThd) :
    ∃ s, Reaches inp init s ∧ (∀ u < n, s.pc u = .barrier₁) ∧ (∀ u, n ≤ u → s.pc u = .vertices u) ∧
      s.broken = false := by
  induction n with
  | zero => exact ⟨init,.refl _,by simp,fun _ _ => rfl,rfl⟩
  | succ n ih =>
    obtain ⟨s,hr,hdone,htodo,hw⟩ := ih (by omega)
    obtain ⟨s',hr',ha,-⟩ := vertices_reach hd (by omega) hw (htodo n (le_refl n))
    refine ⟨s',hr.trans hr',?_,?_,ha.whole⟩
    · intro u hu
      by_cases hun : u = n
      · rw [hun,ha.here]
      · rw [ha.pc,update_of_ne hun]
        exact hdone u (by omega)
    · intro u hu
      rw [ha.pc,update_of_ne (by omega)]
      exact htodo u (by omega)

def For (inp : Input) (c : Nat) (e : Relation) : Prop :=
  e.src % inp.recThd = c ∨ e.dest % inp.recThd = c

theorem push_back_length (s : State) (p c c' : Nat) (e : Relation) :
    ((s.pushBack p c e).buffers p c').length =
      (s.buffers p c').length + if c' = c then 1 else 0 := by
  by_cases h : c' = c <;> simp [State.pushBack,h]

theorem scatter_round (hd : Describes inp) (ht : t < inp.recThd) (hw : s.broken = false)
    (hb : Base inp s) (hpc : s.pc t = .scatter i) (he : inp.relationVector[i]? = some e) :
    ∃ s', Reaches inp s s' ∧ Alone s s' t (.scatter (i + inp.recThd)) ∧
      ∀ c, (s.buffers t c).length ≤ (s'.buffers t c).length ∧
        (For inp c e → (s.buffers t c).length < (s'.buffers t c).length) := by
  have hmem := mem_of_getElem? he
  obtain ⟨hsrc,hdest⟩ := hb.ends hd ht (by rw [hpc]; rfl) hmem
  obtain ⟨hrange,hrange'⟩ := hd.inside hmem
  have hlength := push_back_length s t (e.src % inp.recThd)
  by_cases hsame : e.dest % inp.recThd = e.src % inp.recThd
  · refine ⟨(s.pushBack t (e.src % inp.recThd) e).goto t (.scatter (i + inp.recThd)),
      .step (t := t) ?_ (.refl _),⟨rfl,hw,fun p hp => by simp [State.goto,State.pushBack,hp]⟩,?_⟩
    · simp [step,hw,ht,hpc,he,hrange,hrange',hsrc,hdest,hsame]
    · intro c
      have hc : _ = _ := hlength c e
      simp only [State.goto,hc,For,hsame,or_self]
      exact ⟨Nat.le_add_right _ _,fun h => by simp [h]⟩
  · let s1 := (s.pushBack t (e.src % inp.recThd) e).goto t (.scatterDest i e)
    have hs1 : step inp s t = some s1 := by
      simp [step,hw,ht,hpc,he,hrange,hrange',hsrc,hdest,hsame,s1]
    refine ⟨(s1.pushBack t (e.dest % inp.recThd) e).goto t (.scatter (i + inp.recThd)),
      .step hs1 (.step (t := t) ?_ (.refl _)),⟨?_,hw,fun p hp => ?_⟩,?_⟩
    · simp [step,s1,State.goto,State.pushBack,hw,ht]
    · simp [s1,State.goto,State.pushBack]
    · simp [s1,State.goto,State.pushBack,hp]
    · intro c
      have hc : (s1.buffers t c).length = _ := hlength c e
      have hc' : _ = _ := push_back_length s1 t (e.dest % inp.recThd) c e
      simp only [State.goto,hc',hc]
      refine ⟨by omega,?_⟩
      rintro (h | h)
      · simp [h]
        omega
      · simp [h]

theorem scatter_reach (hd : Describes inp) (ht : t < inp.recThd) (hw : s.broken = false)
    (hb : Base inp s) (hpc : s.pc t = .scatter i) :
    ∃ s', Reaches inp s s' ∧ Alone s s' t (.sizes 0 0) ∧
      ∀ c, (s.buffers t c).length ≤ (s'.buffers t c).length ∧
        ∀ j e, i ≤ j → j % inp.recThd = i % inp.recThd → inp.relationVector[j]? = some e →
          For inp c e → (s.buffers t c).length < (s'.buffers t c).length := by
  generalize hn : inp.relationVector.length - i = n
  induction n using Nat.strongRecOn generalizing s i with
  | ind n ih =>
    cases he : inp.relationVector[i]? with
    | none =>
      refine ⟨s.goto t (.sizes 0 0),.step (t := t) ?_ (.refl _),alone_goto hw,fun c => ⟨.refl,?_⟩⟩
      · simp [step,hw,ht,hpc,he]
      · intro j e hle _ hj
        have hlt := (List.getElem?_eq_some_iff.mp hj).1
        have hge := List.getElem?_eq_none_iff.mp he
        omega
    | some =>
      have hlt := (List.getElem?_eq_some_iff.mp he).1
      have hthreads := hd.threads
      obtain ⟨s1,hr1,ha1,hc1⟩ := scatter_round hd ht hw hb hpc he
      obtain ⟨s',hr,ha,hc⟩ := ih _ (by omega) ha1.whole (hr1.base hb) ha1.here rfl
      refine ⟨s',hr1.trans hr,ha1.trans ha,fun c => ⟨(hc1 c).1.trans (hc c).1,?_⟩⟩
      intro j e hle hmod hj hfor
      by_cases hji : j = i
      · subst hji
        obtain rfl := Option.some.inj (he.symm.trans hj)
        exact lt_of_lt_of_le ((hc1 c).2 hfor) (hc c).1
      · have hnext : i + inp.recThd ≤ j := by
          by_contra hnot
          exact hji (round_eq hmod hle (by omega))
        have hmod' : j % inp.recThd = (i + inp.recThd) % inp.recThd := by
          rw [Nat.add_mod_right]
          exact hmod
        exact lt_of_le_of_lt (hc1 c).1 ((hc c).2 j e hnext hmod' hj hfor)

def total (inp : Input) (s : State) (t tid : Nat) : Nat :=
  ∑ x ∈ Finset.Ico tid inp.recThd, (s.buffers x t).length

theorem total_next {tid : Nat} (h : tid < inp.recThd) :
    total inp s t tid = (s.buffers tid t).length + total inp s t (tid + 1) :=
  Finset.sum_eq_sum_Ico_succ_bot h _

theorem total_end : total inp s t inp.recThd = 0 := by simp [total]

theorem sizes_reach {tid n : Nat} (ht : t < inp.recThd) (hw : s.broken = false)
    (htid : tid ≤ inp.recThd) (hpc : s.pc t = .sizes tid n) :
    ∃ s', Reaches inp s s' ∧ Alone s s' t (.copies 0 (n + total inp s t tid) []) ∧
      s'.buffers = s.buffers := by
  generalize hk : inp.recThd - tid = k
  induction k generalizing s tid n with
  | zero =>
    obtain rfl : tid = inp.recThd := by omega
    rw [total_end]
    refine ⟨s.goto t (.copies 0 n []),.step (t := t) ?_ (.refl _),alone_goto hw,rfl⟩
    simp [step,hw,ht,hpc]
  | succ k ih =>
    have hlt : tid < inp.recThd := by omega
    obtain ⟨s',hr,ha,hbuf⟩ := ih (s := s.goto t (.sizes (tid + 1) (n + (s.buffers tid t).length)))
      hw hlt (update_self ..) (by omega)
    refine ⟨s',.step (t := t) ?_ hr,?_,hbuf⟩
    · simp [step,hw,ht,hpc,hlt]
    · rw [total_next hlt,← Nat.add_assoc]
      exact (alone_goto hw).trans ha

theorem copies_reach {tid n : Nat} (ht : t < inp.recThd) (hw : s.broken = false)
    (htid : tid ≤ inp.recThd) (hpc : s.pc t = .copies tid n tpls)
    (hfits : tpls.length ≤ n) (hlarge : n < tpls.length + total inp s t tid) :
    ∃ s', Reaches inp s s' ∧ s'.broken = true := by
  generalize hk : inp.recThd - tid = k
  induction k generalizing s tid tpls with
  | zero =>
    obtain rfl : tid = inp.recThd := by omega
    rw [total_end] at hlarge
    omega
  | succ k ih =>
    have hlt : tid < inp.recThd := by omega
    rw [total_next hlt] at hlarge
    by_cases hover : n < (tpls ++ s.buffers tid t).length
    · refine ⟨{ s with broken := true },.step (t := t) ?_ (.refl _),rfl⟩
      rw [length_append] at hover
      simp [step,hw,ht,hpc,hlt,hover]
    · obtain ⟨s',hr,hs'⟩ := ih (s := s.goto t (.copies (tid + 1) n (tpls ++ s.buffers tid t)))
        hw hlt (update_self ..) (not_lt.mp hover)
        (by rw [length_append,Nat.add_assoc]; exact hlarge) (by omega)
      rw [length_append] at hover
      refine ⟨s',.step (t := t) ?_ hr,hs'⟩
      simp [step,hw,ht,hpc,hlt,hover]

theorem scatter_from_barrier (hd : Describes inp) (ht : t < inp.recThd) (hw : s.broken = false)
    (hb : Base inp s) (hpc : s.pc t = .barrier₁) (hall : ∀ u < inp.recThd, (s.pc u).arrived₁) :
    ∃ s', Reaches inp s s' ∧ Alone s s' t (.sizes 0 0) ∧
      ∀ c, (s.buffers t c).length ≤ (s'.buffers t c).length ∧
        ∀ j e, j % inp.recThd = t → inp.relationVector[j]? = some e → For inp c e →
          (s.buffers t c).length < (s'.buffers t c).length := by
  have hs1 : step inp s t = some (s.goto t (.scatter t)) := by
    simpa [step,hw,ht,hpc] using hall
  have hb1 := kind_base hb ht (step_kind hs1).2.2
  obtain ⟨s',hr,ha,hc⟩ := scatter_reach (s := s.goto t (.scatter t)) hd ht hw hb1
    (update_self ..)
  refine ⟨s',.step hs1 hr,(alone_goto hw).trans ha,fun c => ⟨(hc c).1,?_⟩⟩
  intro j e hmod hj hfor
  refine (hc c).2 j e ?_ (hmod.trans (Nat.mod_eq_of_lt ht).symm) hj hfor
  rw [← hmod]
  exact Nat.mod_le j _

theorem overrun_reach (hd : Describes inp) {j c : Nat} (hj : inp.relationVector[j]? = some e)
    (hfor : For inp c e) (hc : c ≠ j % inp.recThd) :
    ∃ s, Reaches inp init s ∧ s.broken = true := by
  have hthreads := hd.threads
  have hcT : c < inp.recThd := by
    rcases hfor with h | h <;> exact h ▸ Nat.mod_lt _ hthreads
  have hpT : j % inp.recThd < inp.recThd := Nat.mod_lt _ hthreads
  -- everybody is at the barrier
  obtain ⟨s1,hr1,hat,-,hw1⟩ := barrier_reach hd inp.recThd le_rfl
  have hb1 := hr1.base (init_base inp)
  have hall1 : ∀ u < inp.recThd, (s1.pc u).arrived₁ := fun u hu => by rw [hat u hu]; rfl
  -- the consumer counts
  obtain ⟨s2,hr2,ha2,-⟩ := scatter_from_barrier hd hcT hw1 hb1 (hat c hcT) hall1
  obtain ⟨s3,hr3,ha3,hbuf3⟩ := sizes_reach hcT ha2.whole (Nat.zero_le _) ha2.here
  have ha := ha2.trans ha3
  have hb3 := hr3.base (hr2.base hb1)
  -- the producer pushes
  have hp3 : s3.pc (j % inp.recThd) = .barrier₁ := by
    rw [ha.pc,update_of_ne hc.symm]
    exact hat _ hpT
  have hall3 : ∀ u < inp.recThd, (s3.pc u).arrived₁ := by
    intro u hu
    rw [ha.pc]
    by_cases huc : u = c
    · rw [huc,update_self]
      rfl
    · rw [update_of_ne huc]
      exact hall1 u hu
  obtain ⟨s4,hr4,ha4,hgrow⟩ := scatter_from_barrier hd hpT ha3.whole hb3 hp3 hall3
  -- the consumer copies
  have hpc4 : s4.pc c = _ := (congrFun ha4.pc c).trans ((update_of_ne hc _ _).trans ha3.here)
  obtain ⟨s5,hr5,hs5⟩ := copies_reach hcT ha4.whole (Nat.zero_le _) hpc4 (Nat.zero_le _) (by
    rw [Nat.zero_add,length_nil,Nat.zero_add,total,total]
    refine Finset.sum_lt_sum ?_ ⟨j % inp.recThd,Finset.mem_Ico.mpr ⟨Nat.zero_le _,hpT⟩,?_⟩
    · intro x _
      by_cases hx : x = j % inp.recThd
      · rw [hx,← hbuf3]
        exact (hgrow c).1
      · rw [ha4.buffers x hx,hbuf3]
    · rw [← hbuf3]
      exact (hgrow c).2 j e rfl hj hfor)
  exact ⟨s5,hr1.trans (hr2.trans (hr3.trans (hr4.trans hr5))),hs5⟩

/-- `recover` rebuilds the graph under every schedule exactly if both ends of each relation
belong to the thread that scatters it. -/
theorem recovers_iff_aligned (hd : Describes inp) : Recovers inp ↔ Aligned inp := by
  refine ⟨?_,aligned_recovers hd⟩
  intro h i e he
  have haway : ∀ c, For inp c e → c = i % inp.recThd := by
    intro c hfor
    by_contra hc
    obtain ⟨s,⟨ts,hts⟩,hbroken⟩ := overrun_reach hd he hfor hc
    obtain ⟨ms,run⟩ := Run.nil.reach hts
    rw [(h ms s run).1] at hbroken
    cases hbroken
  exact ⟨haway _ (.inl rfl),haway _ (.inr rfl)⟩

def paired : Input where
  numVertices := 4
  recThd := 2
  vertexVector := [⟨10,0⟩,⟨11,1⟩,⟨12,2⟩,⟨13,3⟩]
  relationVector := [⟨20,5,0,2⟩,⟨21,6,3,1⟩]

def turns : List Nat := (replicate 17 [0,1]).flatten

theorem recovers_iff_aligned_paired : ∃ ms s,
    Run (step paired) (fun _ _ => True) init ms s ∧ s.finished paired ∧ Rebuilt paired s.graph := by
  have hdescribes : Describes paired := by
    refine ⟨by decide,by decide,?_,by decide,?_⟩
    · simp [paired]
    · simp [paired]
  have haligned : Aligned paired := by
    intro i e he
    rcases i with _ | _ | i
    · cases he
      exact ⟨rfl,rfl⟩
    · cases he
      exact ⟨rfl,rfl⟩
    · cases he
  obtain ⟨s,hplay,hdone⟩ : ∃ s, play (step paired) init turns = some s ∧
      (s.pc 0,s.pc 1) = (Pc.done,Pc.done) := Option.map_eq_some_iff.mp (by decide +kernel)
  obtain ⟨ms,run⟩ := Run.nil.reach hplay
  have hfinished : s.finished paired := by
    intro t ht
    obtain ⟨h0,h1⟩ := Prod.mk.inj hdone
    rcases t with _ | _ | t
    · exact h0
    · exact h1
    · exact absurd ht (by simp [paired])
  exact ⟨ms,s,run,hfinished,(((recovers_iff_aligned hdescribes).mpr haligned) ms s run).2 hfinished⟩

def crossing : Input where
  numVertices := 2
  recThd := 2
  vertexVector := [⟨10,0⟩,⟨11,1⟩]
  relationVector := [⟨20,5,1,0⟩]

/-- The second thread gathers before the first has scattered. -/
def early : List Nat :=
  [0,0,1,1] ++ replicate 8 1 ++ replicate 10 0 ++ replicate 3 1 ++ replicate 5 0

/-- The threads finish and the relation is lost. -/
theorem relation_lost : ∃ ms s,
    Run (step crossing) (fun _ _ => True) init ms s ∧ s.broken = false ∧ s.finished crossing ∧
      source s.graph 1 = [] ∧ destination s.graph 0 = [] ∧
      expected crossing Relation.src 1 = [((1,0),⟨20,5,1,0⟩)] := by
  obtain ⟨s,hplay,hfacts⟩ : ∃ s, play (step crossing) init early = some s ∧
      (s.broken,s.pc 0,s.pc 1,(source s.graph 1).length,(destination s.graph 0).length) =
        (false,Pc.done,Pc.done,0,0) := Option.map_eq_some_iff.mp (by decide +kernel)
  obtain ⟨ms,run⟩ := Run.nil.reach hplay
  simp only [Prod.mk.injEq] at hfacts
  obtain ⟨hbroken,h0,h1,hsource,hdestination⟩ := hfacts
  refine ⟨ms,s,run,hbroken,?_,length_eq_zero_iff.mp hsource,
    length_eq_zero_iff.mp hdestination,rfl⟩
  intro t ht
  rcases t with _ | _ | t
  · exact h0
  · exact h1
  · exact absurd ht (by simp [crossing])

end Montage.MontageGraph.Recover
