import Montage.Library.Runs
import Montage.MontageGraph.Integrity

namespace Montage.MontageGraph.Locks
open Library Function

/-- A call, with what the environment gives it: the payloads and the samples. -/
inductive Call where
  | addEdge (r : Relation)
  | removeEdge (src dest : Nat)
  | hasEdge (src dest : Nat)
  | addVertex (vid : Nat) (samples : List Nat) (payload : Addr) (addrs : Nat → Addr)
  | removeVertex (vid : Nat)

def ordered (src dest : Nat) : List Nat := if src > dest then [dest,src] else [src,dest]

def Call.locks : Call → List Nat
  | .addEdge r => ordered r.src r.dest
  | .removeEdge src dest => ordered src dest
  | .hasEdge src _ => [src]
  | .addVertex vid samples _ _ => sampled vid samples
  | .removeVertex vid => [vid]

def Call.loops : Call → Bool
  | .addEdge r => r.src = r.dest
  | .removeEdge src dest => src = dest
  | _ => false

/-- Whether the sequence number of a vertex is incremented when its lock is released. -/
inductive Bump where
  | never
  | always
  | ifPresent (vid : Nat)

def Bump.applies (g : Graph) (v : Nat) : Bump → Bool
  | .never => false
  | .always => true
  | .ifPresent vid => g.Present vid ∧ g.Present v

/-- Where a thread is. The locks it holds are listed from the last one that it took. -/
inductive Pc where
  | idle (last : Option Bool)
  | acquiring (call : Call) (held todo : List Nat)
  -- step 2 of `remove_vertex`
  | validating (vid seq : Nat) (held todo : List Nat)
  | restarting (vid : Nat) (held : List Nat)
  | releasing (bump : Bump) (held : List Nat) (ret : Bool)

/-- The graph, the holders of the locks, the threads, and how many sequence numbers have been
incremented so far. -/
structure State where
  graph : Graph
  lock : Nat → Option Nat
  pc : Nat → Pc
  crashed : Option Crash
  incs : Nat

def start (g : Graph) : State where
  graph := g
  lock := fun _ => none
  pc := fun _ => .idle none
  crashed := none
  incs := 0

namespace State

def goto (s : State) (t : Nat) (pc : Pc) : State := { s with pc := update s.pc t pc }

def take (s : State) (t v : Nat) : State := { s with lock := update s.lock v (some t) }

def unlock (s : State) (v : Nat) : State := { s with lock := update s.lock v none }

def incSeq (s : State) (v : Nat) : State :=
  { s with graph := MontageGraph.incSeq s.graph v, incs := s.incs + 1 }

end State

def body (s : State) (t : Nat) (held : List Nat) : Call → State
  | .addEdge r =>
    match MontageGraph.addEdge s.graph r with
    | .error c => { s with crashed := some c }
    | .ok (g,ret) =>
      { s with graph := g, incs := if ret then s.incs + 2 else s.incs }.goto t
        (.releasing .never held ret)
  | .removeEdge src dest =>
    match MontageGraph.removeEdge s.graph src dest with
    | .error c => { s with crashed := some c }
    | .ok (g,ret) =>
      { s with graph := g, incs := if ret.isSome then s.incs + 2 else s.incs }.goto t
        (.releasing .never held ret.isSome)
  | .hasEdge src dest => s.goto t (.releasing .never held (MontageGraph.hasEdge s.graph src dest))
  | .addVertex vid samples payload addrs =>
    let (g,ret) := MontageGraph.addVertex s.graph vid payload (sampled vid samples) addrs
    { s with graph := g }.goto t (.releasing (.ifPresent vid) held ret)
  | .removeVertex vid =>
    -- step 1 ends with the release of the lock
    if s.graph.Present vid then
      (s.unlock vid).goto t
        (.validating vid (s.graph.vertexSeqs vid) [] (neighbours s.graph vid))
    else s.goto t (.releasing .never held false)

inductive Act where
  | invoke (t : Nat) (call : Call)
  | next (t : Nat)

/-- The next step of thread `t`, up to its next acquisition or release of a lock. -/
def next (s : State) (t : Nat) : Option State :=
  match s.pc t with
  | .idle _ => none
  | .acquiring call held [] => some (body s t held call)
  | .acquiring call held (v :: todo) =>
    if s.lock v = none then some ((s.take t v).goto t (.acquiring call (v :: held) todo)) else none
  | .validating vid seq held (v :: todo) =>
    if s.lock v = none then
      if ¬s.graph.Present v ∧ s.graph.vertexSeqs vid = seq then
        some { s with crashed := some .abort }
      else some ((s.take t v).goto t (.validating vid seq (v :: held) todo))
    else none
  | .validating vid seq held [] =>
    if s.graph.vertexSeqs vid ≠ seq then some (s.goto t (.restarting vid held))
    else match MontageGraph.removeVertex s.graph vid held.reverse with
      | .error c => some { s with crashed := some c }
      | .ok (g,_) => some ({ s with graph := g }.goto t (.releasing .always held true))
  | .restarting vid (v :: held) => some ((s.unlock v).goto t (.restarting vid held))
  | .restarting vid [] => some (s.goto t (.acquiring (.removeVertex vid) [] [vid]))
  | .releasing bump (v :: held) ret =>
    let s := if bump.applies s.graph v then s.incSeq v else s
    some ((s.unlock v).goto t (.releasing bump held ret))
  | .releasing _ [] ret => some (s.goto t (.idle (some ret)))

def step (s : State) : Act → Option State
  | .invoke t call =>
    match s.crashed, s.pc t with
    | none, .idle _ =>
      if call.loops then some (s.goto t (.idle (some false)))
      else some (s.goto t (.acquiring call [] call.locks))
    | _, _ => none
  | .next t => if s.crashed = none then next s t else none

def Call.InRange (numVertices : Nat) : Call → Prop
  | .addEdge r => r.src < numVertices ∧ r.dest < numVertices
  | .removeEdge src dest | .hasEdge src dest => src < numVertices ∧ dest < numVertices
  | .addVertex vid samples _ _ => vid < numVertices ∧ ∀ u ∈ samples, u < numVertices
  | .removeVertex vid => vid < numVertices

def Act.InRange (numVertices : Nat) : Act → Prop
  | .invoke _ call => call.InRange numVertices
  | .next _ => True

end Montage.MontageGraph.Locks
