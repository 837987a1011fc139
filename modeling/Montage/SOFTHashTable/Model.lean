import Montage.Library.Runs
import Montage.Library.Strings

namespace Montage.SOFTHashTable
open Library Function

/-- `softUtils::state`, the two low bits of a `next` pointer. -/
inductive NodeState where
  | inserted
  | intendToDelete
  | intendToInsert
  | deleted
  deriving DecidableEq

structure Ref where
  ref : Option Nat
  state : NodeState
  deriving DecidableEq

structure Config where
  keySize : Nat
  valueSize : Nat

/-- `Node`. `pptr` says whether there is a persistent node. -/
structure Node where
  key : List Nat
  value : List Nat
  pptr : Bool
  next : Ref

def Node.compare (cfg : Config) (n : Node) (key : List Nat) : Ordering :=
  strncmp n.key key (min cfg.keySize key.length)

/-- The operations on a bucket; an insertion comes with what the memory of the two arrays held. -/
inductive Op where
  | insert (key value keyJunk valueJunk : List Nat)
  | remove (key : List Nat)
  | get (key : List Nat)

def Op.key : Op → List Nat
  | .insert key _ _ _ | .remove key | .get key => key

def Op.value : Op → List Nat
  | .insert _ value _ _ => value
  | .remove _ | .get _ => []

/-- The variables of `_remove` after its `_find`: `node` is `currRef`, `own` is `casResult`. -/
structure Race where
  pred : Nat
  predState : NodeState
  node : Nat
  own : Bool
  ret : Option (List Nat)

/-- Where a thread is, with its local variables; each place is just before an access to shared
memory. -/
inductive Pc where
  | idle
  | start (op : Op)
  | walk (op : Op) (prev : Nat) (prevState : NodeState) (curr : Nat)
  | trim (op : Op) (prev : Nat) (prevState : NodeState) (curr : Nat) (succ : Option Nat)
  | trimCas (op : Op) (prev : Nat) (prevState : NodeState) (curr : Nat) (succ trimmed : Option Nat)
  | getWalk (key : List Nat) (curr : Nat)
  | link (key value keyJunk valueJunk : List Nat) (pred : Nat) (predState : NodeState) (curr : Nat)
  | insertTest (node : Nat) (result : Bool)
  | insertLoad (node : Nat) (result : Bool)
  | insertCas (node : Nat) (result : Bool) (p : Option Nat)
  | removeTest (r : Race)
  | removeLoad (r : Race)
  | removeCas (r : Race) (p : Option Nat)
  | destroy (r : Race)
  | deleteTest (r : Race)
  | deleteLoad (r : Race)
  | deleteCas (r : Race) (p : Option Nat)
  | unlink (r : Race)
  | unlinkCas (r : Race) (succ : Option Nat)
  | inserted (result : Bool)
  | removed (node : Option Nat) (own : Bool) (ret : Option (List Nat))
  | got (ret : Option (List Nat))
  | crashed

/-- A call of `_remove` that has returned: the node it found under its key, whether its own
transition to `INTEND_TO_DELETE` succeeded, and the result. -/
structure Entry where
  call : Nat × Nat
  node : Option Nat
  own : Bool
  ret : Option (List Nat)
  deriving DecidableEq

/-- A bucket. Nodes are numbered as they are made, since the tracker does not give back a node that
an operation can reach; 0 is the head and 1 the last node. For the statements: how many calls a
thread has made, and which call has made the transition of a node to `INTEND_TO_DELETE`. -/
structure State where
  nodes : Nat → Node
  made : Nat
  pc : Nat → Pc
  calls : Nat → Nat
  taken : Nat → Option (Nat × Nat)
  log : List Entry

def sentinel (cfg : Config) (junk : Nat → List Nat) (n : Nat) : Node :=
  if n = 0 then
    ⟨fill cfg.keySize [] (junk 0),fill cfg.valueSize [] (junk 1),false,some 1,.inserted⟩
  else ⟨fill cfg.keySize [127] (junk 2),fill cfg.valueSize [] (junk 3),false,none,.inserted⟩

def init (cfg : Config) (junk : Nat → List Nat) : State where
  nodes := sentinel cfg junk
  made := 2
  pc := fun _ => .idle
  calls := fun _ => 0
  taken := fun _ => none
  log := []

namespace State

def goto (s : State) (t : Nat) (pc : Pc) : State := { s with pc := update s.pc t pc }

def call (s : State) (t : Nat) : Nat × Nat := (t,s.calls t)

def next (s : State) (n : Nat) : Ref := (s.nodes n).next

def setNext (s : State) (n : Nat) (r : Ref) : State :=
  { s with nodes := update s.nodes n { s.nodes n with next := r } }

/-- `compare_exchange_strong` on `next`. -/
def cas (s : State) (n : Nat) (expected desired : Ref) : State :=
  if s.next n = expected then s.setNext n desired else s

def newNode (s : State) (node : Node) : State :=
  { s with nodes := update s.nodes s.made node, made := s.made + 1 }

end State

def follow (r : Option Nat) (k : Nat → Pc) : Pc :=
  match r with
  | none => .crashed
  | some n => k n

def afterFind (cfg : Config) (s : State) (prev : Nat) (prevState : NodeState) (curr : Nat)
    (currState : NodeState) : Op → Pc
  | .insert key value keyJunk valueJunk =>
    if (s.nodes curr).compare cfg key = .eq then
      if currState ≠ .intendToInsert then .inserted false
      -- `create` of the persistent node
      else if (s.nodes curr).pptr then .insertTest curr false else .crashed
    else .link key value keyJunk valueJunk prev prevState curr
  | .remove key =>
    if (s.nodes curr).compare cfg key ≠ .eq then .removed none false none
    else if currState = .intendToInsert ∨ currState = .deleted then .removed none false none
    else .removeTest ⟨prev,prevState,curr,false,none⟩
  | .get _ => .crashed

/-- The next access of a thread in `_find`, its `_trim` included, or in `_get`. -/
def findTick (cfg : Config) (s : State) (t : Nat) : Pc → Option State
  | .start (.get key) =>
    -- the pointer is used with its state
    if (s.next 0).state = .inserted then
      some (s.goto t (follow (s.next 0).ref fun curr => .getWalk key curr))
    else some (s.goto t .crashed)
  | .start op => some (s.goto t (follow (s.next 0).ref fun curr => .walk op 0 (s.next 0).state curr))
  | .walk op prev prevState curr =>
    let succ := s.next curr
    if succ.state ≠ .deleted then
      if (s.nodes curr).compare cfg op.key ≠ .lt then
        some (s.goto t (afterFind cfg s prev prevState curr succ.state op))
      else some (s.goto t (follow succ.ref fun c => .walk op curr succ.state c))
    else some (s.goto t (.trim op prev prevState curr succ.ref))
  | .trim op prev prevState curr succ =>
    some (s.goto t (.trimCas op prev prevState curr succ (s.next curr).ref))
  | .trimCas op prev prevState curr succ trimmed =>
    some ((s.cas prev ⟨some curr,prevState⟩ ⟨trimmed,prevState⟩).goto t
      (follow succ fun c => .walk op prev prevState c))
  | .getWalk key curr =>
    if (s.nodes curr).compare cfg key = .lt then
      some (s.goto t (follow (s.next curr).ref fun c => .getWalk key c))
    else if (s.nodes curr).compare cfg key = .eq ∧
        ((s.next curr).state = .inserted ∨ (s.next curr).state = .intendToDelete) then
      some (s.goto t (.got (some (s.nodes curr).value)))
    else some (s.goto t (.got none))
  | .got _ => some (s.goto t .idle)
  | _ => none

def insertTick (cfg : Config) (s : State) (t : Nat) : Pc → Option State
  | .link key value keyJunk valueJunk pred predState curr =>
    -- a longer string would overflow the array
    if key.length ≤ cfg.keySize ∧ value.length ≤ cfg.valueSize then
      if s.next pred = ⟨some curr,predState⟩ then
        some (((s.newNode ⟨fill cfg.keySize key keyJunk,fill cfg.valueSize value valueJunk,true,
          some curr,.intendToInsert⟩).setNext pred ⟨some s.made,predState⟩).goto t
            (.insertTest s.made true))
      else some (s.goto t (.start (.insert key value keyJunk valueJunk)))
    else some (s.goto t .crashed)
  | .insertTest node result =>
    if (s.next node).state = .intendToInsert then some (s.goto t (.insertLoad node result))
    else some (s.goto t (.inserted result))
  | .insertLoad node result => some (s.goto t (.insertCas node result (s.next node).ref))
  | .insertCas node result p =>
    some ((s.cas node ⟨p,.intendToInsert⟩ ⟨p,.inserted⟩).goto t (.insertTest node result))
  | .inserted _ => some (s.goto t .idle)
  | _ => none

def removeTick (s : State) (t : Nat) : Pc → Option State
  | .removeTest r =>
    if (s.next r.node).state = .inserted then some (s.goto t (.removeLoad r))
    else some (s.goto t (.destroy r))
  | .removeLoad r => some (s.goto t (.removeCas r (s.next r.node).ref))
  | .removeCas r p =>
    if s.next r.node = ⟨p,.inserted⟩ then
      some { (s.setNext r.node ⟨p,.intendToDelete⟩).goto t (.destroy { r with own := true }) with
        taken := update s.taken r.node (some (s.call t)) }
    else some (s.goto t (.removeTest r))
  | .destroy r =>
    if (s.nodes r.node).pptr then some (s.goto t (.deleteTest r)) else some (s.goto t .crashed)
  | .deleteTest r =>
    if (s.next r.node).state = .intendToDelete then
      some (s.goto t (.deleteLoad { r with ret := some (s.nodes r.node).value }))
    else if r.own then some (s.goto t (.unlink r))
    else some (s.goto t (.removed (some r.node) false r.ret))
  | .deleteLoad r => some (s.goto t (.deleteCas r (s.next r.node).ref))
  | .deleteCas r p =>
    some ((s.cas r.node ⟨p,.intendToDelete⟩ ⟨p,.deleted⟩).goto t (.deleteTest r))
  | .unlink r => some (s.goto t (.unlinkCas r (s.next r.node).ref))
  | .unlinkCas r succ =>
    some ((s.cas r.pred ⟨some r.node,r.predState⟩ ⟨succ,r.predState⟩).goto t
      (.removed (some r.node) r.own r.ret))
  | .removed node own ret =>
    some { s.goto t .idle with log := s.log ++ [⟨s.call t,node,own,ret⟩] }
  | _ => none

def tick (cfg : Config) (s : State) (t : Nat) : Option State :=
  (findTick cfg s t (s.pc t)).or
    ((insertTick cfg s t (s.pc t)).or (removeTick s t (s.pc t)))

inductive Act where
  | call (t : Nat) (op : Op)
  | tick (t : Nat)

def step (cfg : Config) (s : State) : Act → Option State
  | .call t op =>
    match s.pc t with
    | .idle => some { s.goto t (.start op) with
        calls := update s.calls t (s.calls t + 1) }
    | _ => none
  | .tick t => tick cfg s t

end Montage.SOFTHashTable
