import Montage.EpochSys.Calls
import Mathlib.Data.List.Sort
import Mathlib.Data.List.Dedup

namespace Montage.MontageGraph
open Function

abbrev Edge := Nat × Nat

/-- A `Relation` payload: where it lies, and its fields, which never change. -/
structure Relation where
  addr : Addr
  weight : Int
  src : Nat
  dest : Nat
  deriving DecidableEq

def Relation.edge (r : Relation) : Edge := (r.src,r.dest)

/-- `Map`: an unordered map from edges to relations. -/
abbrev Map := List (Edge × Relation)

def find (m : Map) (p : Edge) : Option Relation := (m.find? (·.1 == p)).map Prod.snd

def hasRelation (m : Map) (p : Edge) : Bool := (find m p).isSome

/-- `emplace` inserts only if the key is new. -/
def emplace (m : Map) (p : Edge) (r : Relation) : Map × Bool :=
  if hasRelation m p then (m,false) else (m ++ [(p,r)],true)

/-- `remove_relation`: the relation is taken out of the map and returned. -/
def removeRelation (m : Map) (p : Edge) : Map × Option Relation :=
  (m.filter (·.1 ≠ p),find m p)

structure TVertex where
  payload : Addr
  adjacencyList : Map
  destList : Map

structure Graph where
  vertex : Nat → Option TVertex
  vertexSeqs : Nat → Nat

inductive Crash where
  | assertion
  | abort
  | nullPointer

def Graph.Present (g : Graph) (v : Nat) : Prop := g.vertex v ≠ none

instance (g : Graph) (v : Nat) : Decidable (g.Present v) := inferInstanceAs (Decidable (_ ≠ _))

variable (g : Graph)

/-- The relations that start at a vertex; where there is no vertex, the program does not get
as far as looking into the map. -/
def source (v : Nat) : Map := ((g.vertex v).map TVertex.adjacencyList).getD []

def destination (v : Nat) : Map := ((g.vertex v).map TVertex.destList).getD []

def setSource (v : Nat) (m : Map) : Graph := { g with
  vertex := update g.vertex v ((g.vertex v).map ({ · with adjacencyList := m })) }

def setDestination (v : Nat) (m : Map) : Graph := { g with
  vertex := update g.vertex v ((g.vertex v).map ({ · with destList := m })) }

/-- `inc_seq` on a 32-bit number. -/
def incSeq (v : Nat) : Graph :=
  { g with vertexSeqs := update g.vertexSeqs v ((g.vertexSeqs v + 1) % 2 ^ 32) }

def link (r : Relation) : Graph × Bool × Bool :=
  let ret1 := emplace (source g r.src) r.edge r
  let ret2 := emplace (destination g r.dest) r.edge r
  (setDestination (setSource g r.src ret1.1) r.dest ret2.1,ret1.2,ret2.2)

/-- What `add_edge` does between its locks. -/
def addEdge (r : Relation) : Except Crash (Graph × Bool) :=
  if ¬g.Present r.src ∨ ¬g.Present r.dest then .ok (g,false)
  else
    let (g',ret1,ret2) := link g r
    if ret1 ≠ ret2 then .error .assertion
    else if ret1 then .ok (incSeq (incSeq g' r.src) r.dest,true)
    else .ok (g',false)

/-- What `remove_edge` does between its locks. Also returns the relation to be deleted. -/
def removeEdge (src dest : Nat) : Except Crash (Graph × Option Relation) :=
  if g.Present src ∧ g.Present dest then
    let ret1 := removeRelation (source g src) (src,dest)
    let ret2 := removeRelation (destination g dest) (src,dest)
    let g' := setDestination (setSource g src ret1.1) dest ret2.1
    if ret1.2 ≠ ret2.2 then .error .assertion
    else if ret1.2.isSome then .ok (incSeq (incSeq g' src) dest,ret1.2)
    else .ok (g',none)
  else .ok (g,none)

def hasEdge (src dest : Nat) : Bool :=
  g.Present src && hasRelation (source g src) (src,dest)

/-- `std::sort` followed by `std::unique`. -/
def sortUnique (vec : List Nat) : List Nat := (vec.insertionSort (· ≤ ·)).dedup

/-- The vertices that `add_vertex` locks: the ones it sampled and the new one. -/
def sampled (vid : Nat) (samples : List Nat) : List Nat := sortUnique (samples ++ [vid])

def join (vid : Nat) (g : Graph) (r : Relation) : Graph :=
  if ¬g.Present r.dest ∨ r.dest = vid then g else (link g r).1

/-- A new vertex without relations takes its place in `idxToVertex`. -/
def fresh (vid : Nat) (payload : Addr) : Graph :=
  { g with vertex := update g.vertex vid (some ⟨payload,[],[]⟩) }

def destroy (vid : Nat) : Graph := { g with vertex := update g.vertex vid none }

/-- What `add_vertex` does between its locks, up to the sequence numbers. The relations to the
vertices `vec` are at the addresses `addrs`. -/
def addVertex (vid : Nat) (payload : Addr) (vec : List Nat) (addrs : Nat → Addr) :
    Graph × Bool :=
  if g.Present vid then (g,false)
  else
    ((vec.map fun u => ⟨addrs u,-1,vid,u⟩).foldl (join vid) (fresh g vid payload),true)

/-- Step 1 of `remove_vertex`: the neighbours and the vertex itself. -/
def neighbours (vid : Nat) : List Nat :=
  sortUnique ((source g vid).map (·.2.dest) ++ (destination g vid).map (·.2.src) ++ [vid])

/-- One round of step 3 of `remove_vertex`, which collects the relations to be deleted. -/
def detach (vid : Nat) (st : Graph × List Relation) (other : Nat) :
    Except Crash (Graph × List Relation) :=
  let (g,deleted) := st
  if other = vid then .ok (g,deleted)
  else if ¬g.Present other then .error .nullPointer
  else if ¬hasRelation (source g other) (other,vid) ∧
      ¬hasRelation (destination g other) (vid,other) then .error .abort
  else
    let ret1 := removeRelation (source g other) (other,vid)
    let ret2 := removeRelation (destination g other) (vid,other)
    .ok (setDestination (setSource g other ret1.1) other ret2.1,deleted ++ ret1.2.toList)

/-- Step 3 of `remove_vertex`, with the relations and the vertex payload to be deleted. -/
def removeVertex (vid : Nat) (vertices : List Nat) :
    Except Crash (Graph × List Relation × Addr) := do
  let (g,deleted) ← vertices.foldlM (detach vid) (g,[])
  match g.vertex vid with
  | none => throw .nullPointer
  | some t =>
    let deleted := deleted ++ t.adjacencyList.map Prod.snd
    return (destroy g vid,deleted,t.payload)

end Montage.MontageGraph
