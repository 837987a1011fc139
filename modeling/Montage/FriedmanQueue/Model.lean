import Montage.Library.Runs

namespace Montage.FriedmanQueue
open Library Function

/-- Where a thread is in `enqueue` or `dequeue`, with its local variables: each place is just before
an access to shared memory. `owner` is the thread whose cell `addr` is. -/
inductive Pc (V : Type) where
  | idle
  | enqueue (node : Nat)
  | enqTail (node last : Nat)
  | enqNext (node last : Nat) (next : Option Nat)
  | enqCas (node last : Nat)
  | enqSwing (node last next : Nat)
  | enqLink (node last : Nat)
  | enqueued
  | dequeue
  | deqLoop
  | deqHead (first : Nat)
  | deqTail (first last : Nat)
  | deqNext (first last : Nat) (next : Option Nat)
  | deqEmpty
  | deqSwing (last next : Nat)
  | deqRead (first next : Nat)
  | deqCas (first next : Nat) (value : V)
  | deqCopy (first next : Nat) (value : V)
  | deqAdvance (first next : Nat) (value : V)
  | helpTid (first next : Nat) (value : V)
  | helpCheck (first next : Nat) (value : V) (owner : Nat)
  | helpCopy (first next : Nat) (value : V) (owner : Nat)
  | helpAdvance (first next : Nat)
  | dequeued (res : Option V)
  | crashed

/-- Nodes are numbered as they are made, since the tracker does not give back a node that an
operation can reach; `none` in `deqTid` stands for -1. For the statements: what the last `dequeue` of
a thread has returned, as long as it has not begun another, and the node that its last `dequeue`, which
may still run, has won. -/
structure State (V : Type) where
  value : Nat → V
  next : Nat → Option Nat
  deqTid : Nat → Option Nat
  made : Nat
  head : Nat
  tail : Nat
  returnedVal : Nat → V
  pc : Nat → Pc V
  returned : Nat → Option (Option V)
  won : Nat → Option Nat

variable {V : Type}

/-- The queue with its dummy node; neither its value nor the cells are initialised. -/
def init (value returnedVal : Nat → V) : State V where
  value := value
  next := fun _ => none
  deqTid := fun _ => none
  made := 1
  head := 0
  tail := 0
  returnedVal := returnedVal
  pc := fun _ => .idle
  returned := fun _ => none
  won := fun _ => none

namespace State

variable (s : State V)

def goto (t : Nat) (pc : Pc V) : State V :=
  { s with pc := update s.pc t pc }

def newNode (v : V) : State V :=
  { s with
    value := update s.value s.made v
    next := update s.next s.made none
    deqTid := update s.deqTid s.made none
    made := s.made + 1 }

def write (t : Nat) (v : V) : State V :=
  { s with returnedVal := update s.returnedVal t v }

def swing (last next : Nat) : State V :=
  { s with tail := if s.tail = last then next else s.tail }

def advance (first next : Nat) : State V :=
  { s with head := if s.head = first then next else s.head }

def setReturned (t : Nat) (r : Option (Option V)) : State V :=
  { s with returned := update s.returned t r }

def setWon (t : Nat) (x : Option Nat) : State V :=
  { s with won := update s.won t x }

end State

def enqueueTick (s : State V) (t : Nat) : Pc V → Option (State V)
  | .enqueue node => some (s.goto t (.enqTail node s.tail))
  | .enqTail node last => some (s.goto t (.enqNext node last (s.next last)))
  | .enqNext node last next =>
    if last = s.tail then
      match next with
      | none => some (s.goto t (.enqCas node last))
      | some x => some (s.goto t (.enqSwing node last x))
    else some (s.goto t (.enqueue node))
  | .enqCas node last =>
    if s.next last = none then
      some { s.goto t (.enqLink node last) with next := update s.next last (some node) }
    else some (s.goto t (.enqueue node))
  | .enqSwing node last x => some ((s.swing last x).goto t (.enqueue node))
  | .enqLink node last => some ((s.swing last node).goto t .enqueued)
  | .enqueued => some (s.goto t .idle)
  | _ => none

def dequeueTick (zero : V) (s : State V) (t : Nat) : Pc V → Option (State V)
  | .dequeue => some ((s.write t zero).goto t .deqLoop)
  | .deqLoop => some (s.goto t (.deqHead s.head))
  | .deqHead first => some (s.goto t (.deqTail first s.tail))
  | .deqTail first last => some (s.goto t (.deqNext first last (s.next first)))
  | .deqNext first last next =>
    if first = s.head then
      if first = last then
        match next with
        | none => some (s.goto t .deqEmpty)
        | some x => some (s.goto t (.deqSwing last x))
      else
        match next with
        | none => some (s.goto t .crashed)
        | some x => some (s.goto t (.deqRead first x))
    else some (s.goto t .deqLoop)
  | .deqEmpty => some ((s.write t zero).goto t (.dequeued none))
  | .deqSwing last x => some ((s.swing last x).goto t .deqLoop)
  | .deqRead first x => some (s.goto t (.deqCas first x (s.value x)))
  | .deqCas first x v =>
    if s.deqTid x = none then
      some { (s.setWon t (some x)).goto t (.deqCopy first x v) with
        deqTid := update s.deqTid x (some t) }
    else some (s.goto t (.helpTid first x v))
  | .deqCopy first x v => some ((s.write t v).goto t (.deqAdvance first x v))
  | .deqAdvance first x v => some ((s.advance first x).goto t (.dequeued (some v)))
  | .helpTid first x v =>
    match s.deqTid x with
    | none => some (s.goto t .crashed)
    | some owner => some (s.goto t (.helpCheck first x v owner))
  | .helpCheck first x v owner =>
    if s.head = first then some (s.goto t (.helpCopy first x v owner)) else some (s.goto t .deqLoop)
  | .helpCopy first x v owner => some ((s.write owner v).goto t (.helpAdvance first x))
  | .helpAdvance first x => some ((s.advance first x).goto t .deqLoop)
  | .dequeued res => some ((s.setReturned t (some res)).goto t .idle)
  | _ => none

inductive Act (V : Type) where
  | enqueue (t : Nat) (v : V)
  | dequeue (t : Nat)
  | tick (t : Nat)

def step (zero : V) (s : State V) : Act V → Option (State V)
  | .enqueue t v =>
    match s.pc t with
    | .idle => some ((s.newNode v).goto t (.enqueue s.made))
    | _ => none
  | .dequeue t =>
    match s.pc t with
    | .idle => some (((s.setReturned t none).setWon t none).goto t .dequeue)
    | _ => none
  | .tick t => (enqueueTick s t (s.pc t)).or (dequeueTick zero s t (s.pc t))

end Montage.FriedmanQueue
