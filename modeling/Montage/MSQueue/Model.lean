import Montage.Library.Chains
import Montage.Library.Runs
import Montage.Recoverable.Pending

namespace Montage.MSQueue
open Library Function

inductive Event (V : Type) where
  | enq (v : V)
  | deq (v : V)

inductive Fifo {V : Type} : List V → Event V → List V → Prop
  | enq : Fifo vs (.enq v) (vs ++ [v])
  | deq : Fifo (v :: vs) (.deq v) vs

/-- Where a thread is in `enqueue` or `dequeue`, with its local variables: the new node `n`,
`cur_tail` or `cur_head`, the serial number `sn`, `next` and the payload `p`. -/
inductive Pc (V : Type) where
  | idle
  | enqueue (n : Nat)
  | enqTail (n tail : Nat)
  | enqSn (n tail sn : Nat)
  | enqNext (n tail sn : Nat) (next : Option Nat)
  | enqSet (n tail sn : Nat)
  | enqCas (n tail : Nat)
  | enqSwing (n tail next : Nat)
  | enqLink (n tail : Nat)
  | enqueued
  | dequeue
  | deqHead (head : Nat)
  | deqTail (head tail : Nat)
  | deqNext (head tail : Nat) (next : Option Nat)
  | deqSwing (tail next : Nat)
  | deqTake (head next : Nat)
  | deqCas (head next p : Nat)
  | deqVal (head p : Nat)
  | deqWrite (head p : Nat) (v : V)
  | dequeued (res : Option V)
  | crashed
  deriving DecidableEq

/-- A thread and what it has pending. For the statements: the argument of its call, the operation
that its `CAS_verify` has performed, and whether the queue has been empty since the call. -/
structure Thread (V : Type) extends Recoverable.PendingLists where
  pc : Pc V
  arg : Option V
  done : Option (Event V)
  sawEmpty : Bool

/-- Nodes are numbered as they are made, since a number stands for the use of a node that is
not reused while an operation can reach it. The payload made with node `n` is payload `n`. -/
structure State (V : Type) extends Recoverable.Payloads where
  next : Nat → Option Nat
  payload : Nat → Option Nat
  val : Nat → Option V
  sn : Nat → Nat
  made : Nat
  head : Nat
  tail : Nat
  globalSn : Nat
  thread : Nat → Thread V

variable {V : Type}

def init : State V where
  next := fun _ => none
  payload := fun _ => none
  val := fun _ => none
  sn := fun _ => 0
  made := 1
  head := 0
  tail := 0
  globalSn := 0
  committed := ∅
  retired := ∅
  thread := fun _ => ⟨.empty,.idle,none,none,false⟩

variable (s : State V)

def State.put (t : Nat) (th : Thread V) : State V :=
  { s with thread := update s.thread t th }

def State.goto (t : Nat) (pc : Pc V) : State V :=
  s.put t { s.thread t with pc := pc }

def State.newNode (v : V) : State V :=
  { s with
    next := update s.next s.made none
    payload := update s.payload s.made (some s.made)
    val := update s.val s.made (some v)
    sn := update s.sn s.made 0
    made := s.made + 1 }

/-- A successful `CAS_verify` ends the operation. -/
def State.commit (t : Nat) (pc : Pc V) (e : Option (Event V)) : State V :=
  { s with
    toPayloads := s.endOp (s.thread t).toPendingLists
    thread := update s.thread t { s.thread t with toPendingLists := .empty, pc := pc, done := e } }

def State.abort (t : Nat) (pc : Pc V) : State V :=
  s.put t { s.thread t with toPendingLists := (s.thread t).abortOp, pc := pc }

def State.swing (tail next : Nat) : State V :=
  { s with tail := if s.tail = tail then next else s.tail }

/-- The next access of a thread. `fails` says that `CAS_verify` fails for an epoch change. -/
def tick (t : Nat) (fails : Bool) : Option (State V) :=
  match (s.thread t).pc with
  | .idle | .crashed => none
  | .enqueue n => some (s.goto t (.enqTail n s.tail))
  | .enqTail n tail =>
    some { s.goto t (.enqSn n tail s.globalSn) with globalSn := s.globalSn + 1 }
  | .enqSn n tail sn => some (s.goto t (.enqNext n tail sn (s.next tail)))
  | .enqNext n tail sn next =>
    if tail = s.tail then
      match next with
      | none => some (s.goto t (.enqSet n tail sn))
      | some x => some (s.goto t (.enqSwing n tail x))
    else some (s.goto t (.enqueue n))
  | .enqSet n tail sn =>
    match s.payload n with
    | none => some (s.goto t .crashed)
    | some p => some { s.goto t (.enqCas n tail) with sn := update s.sn p sn }
  | .enqCas n tail =>
    if !fails && s.next tail = none then
      some { s.commit t (.enqLink n tail) ((s.thread t).arg.map .enq) with
        next := update s.next tail (some n) }
    else some (s.abort t (.enqueue n))
  | .enqSwing n tail x => some ((s.swing tail x).goto t (.enqueue n))
  | .enqLink n tail => some ((s.swing tail n).goto t .enqueued)
  | .dequeue => some (s.goto t (.deqHead s.head))
  | .deqHead head => some (s.goto t (.deqTail head s.tail))
  | .deqTail head tail => some (s.goto t (.deqNext head tail (s.next head)))
  | .deqNext head tail next =>
    if head = s.head then
      if head = tail then
        match next with
        | none => some (s.goto t (.dequeued none))
        | some x => some (s.goto t (.deqSwing tail x))
      else
        match next with
        | none => some (s.goto t .crashed)
        | some n => some (s.goto t (.deqTake head n))
    else some (s.goto t .dequeue)
  | .deqSwing tail x => some ((s.swing tail x).goto t .dequeue)
  | .deqTake head n =>
    match s.payload n with
    | none => some (s.goto t .crashed)
    | some p => some (s.put t { s.thread t with
        toPendingLists := (s.thread t).pretire p
        pc := .deqCas head n p })
  | .deqCas head n p =>
    if !fails && s.head = head then
      some { s.commit t (.deqVal head p) ((s.val p).map .deq) with head := n }
    else some (s.abort t .dequeue)
  | .deqVal head p =>
    match s.val p with
    | none => some (s.goto t .crashed)
    | some v => some (s.goto t (.deqWrite head p v))
  | .deqWrite head p v =>
    some { s.goto t (.dequeued (some v)) with payload := update s.payload head (some p) }
  | .enqueued | .dequeued _ => some (s.goto t .idle)

inductive Act (V : Type) where
  | enqueue (t : Nat) (v : V)
  | dequeue (t : Nat)
  | tick (t : Nat) (fails : Bool)

def act : Act V → Option (State V)
  | .enqueue t v =>
    match (s.thread t).pc with
    | .idle => some ((s.newNode v).put t { s.thread t with
        toPendingLists := (s.thread t).pnew s.made
        pc := .enqueue s.made
        arg := some v, done := none, sawEmpty := false })
    | _ => none
  | .dequeue t =>
    match (s.thread t).pc with
    | .idle => some (s.put t { s.thread t with
        pc := .dequeue, arg := none, done := none, sawEmpty := false })
    | _ => none
  | .tick t fails => tick s t fails

def State.note : State V :=
  { s with thread := fun t => { s.thread t with
      sawEmpty := (s.thread t).sawEmpty || (s.next s.head).isNone } }

def step (a : Act V) : Option (State V) := act s.note a

def Vals (vs : List V) : Prop :=
  ∃ l, Chain s.next (s.next s.head) l ∧
    l.map (fun n => (s.payload n).bind s.val) = vs.map some

def succeeds : Act V → Bool
  | .tick t fails =>
    match (s.thread t).pc with
    | .enqCas _ tail => !fails && s.next tail = none
    | .deqCas head _ _ => !fails && s.head = head
    | _ => false
  | _ => false

def Act.thread : Act V → Nat
  | .enqueue t _ | .dequeue t | .tick t _ => t

def Act.calls (t : Nat) : Act V → Prop
  | .enqueue u _ | .dequeue u => u = t
  | .tick _ _ => False

def WasEmpty (ms : List (Move (State V) (Act V))) (t : Nat) : Prop :=
  Since ms (Act.calls t) fun s => Vals s []

/-- A successful `CAS_verify` performs the one operation of its call, and nothing else
changes the queue. -/
def Linearizes (m : Move (State V) (Act V)) : Prop :=
  ∀ vs, Vals m.pre vs →
    if succeeds m.pre m.act then
      ∃ e vs', (m.pre.thread m.act.thread).done = none ∧
        (m.post.thread m.act.thread).done = some e ∧ Fifo vs e vs' ∧ Vals m.post vs'
    else Vals m.post vs

/-- What a call returns is what its `CAS_verify` has done; without one, the queue was empty
during the call. Null pointers are not followed. -/
def Returns (ms : List (Move (State V) (Act V))) (t : Nat) (th : Thread V) : Prop :=
  match th.pc with
  | .enqueued => ∃ v, th.arg = some v ∧ th.done = some (.enq v)
  | .dequeued (some v) => th.done = some (.deq v)
  | .dequeued none => th.done = none ∧ WasEmpty ms t
  | .crashed => False
  | _ => True

/-- The nodes after the head, which does not overtake the tail, carry payloads with
increasing serial numbers, and these are the ones that are registered and not retired. -/
structure Ordered (l ps : List Nat) (vs : List V) : Prop where
  chain : Chain s.next (s.next s.head) l
  tail : s.tail ∈ s.head :: l
  payloads : l.map s.payload = ps.map some
  vals : ps.map s.val = vs.map some
  increasing : (ps.map s.sn).Pairwise (· < ·)
  durable : ∀ p, p ∈ s.committed ∧ p ∉ s.retired ↔ p ∈ ps

end Montage.MSQueue
