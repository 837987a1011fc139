import Montage.Library.Maps
import Montage.Recoverable.Memory

namespace Montage.MontageHashTable
open Library Library.Maps Recoverable EpochSys Function
open ToBeFreed (Kind)

structure Payload (K V : Type) where
  key : K
  val : V

variable {K V : Type} [LinearOrder K]

inductive Position where
  | equal (before : List Addr) (curr : Addr) (after : List Addr)
  | absent (before after : List Addr)

/-- The loop of `put`, `insert` and `remove`, with the nodes it has passed. A node is given by
its payload. -/
def search (content : Addr → Payload K V) (key : K) : List Addr → List Addr → Position
  | before, [] => .absent before []
  | before, curr :: after =>
    if (content curr).key = key then .equal before curr after
    else if key < (content curr).key then .absent before (curr :: after)
    else search content key (before ++ [curr]) after

/-- The loop of `get`, which does not use the order. -/
def lookup (content : Addr → Payload K V) (key : K) : List Addr → Option V
  | [] => none
  | curr :: after =>
    if (content curr).key = key then some (content curr).val else lookup content key after

/-- What a critical section works on: the blocks and their contents, the calling thread, and the
list of the bucket. -/
structure Section (K V : Type) where
  mem : Memory
  content : Addr → Payload K V
  thread : Thread
  bucket : List Addr

namespace Section

variable (al : Allocator) (w : Section K V)

/-- `set_val`, with the payload that the node gets. -/
def setVal (curr : Addr) (val : V) :
    Except Fault (Section K V × Addr) :=
  match w.thread.epoch with
  | none => .error .assertion
  | some c => do
    let (is,r) ← openwritePblk w.mem.heap (al.fresh w.mem.allocated) curr c
    return ({ w with
      mem := w.mem.perform (is ++ registerUpdatePblk r c)
      content := update w.content r { w.content curr with val := val } },r)

def delete (b : Addr) : Except Fault (Section K V) := do
  let (mem,thread) ← w.mem.call w.thread (pdelete · · b (al.fresh w.mem.allocated))
  return { w with mem := mem, thread := thread }

def put (key : K) (val : V) (newNode : Addr) :
    Except Fault (Section K V × Result V) :=
  match search w.content key [] w.bucket with
  | .equal before curr after => do
    let ret := (w.content curr).val
    let (w,payload) ← w.setVal al curr val
    let w ← { w with bucket := before ++ payload :: after }.delete al newNode
    return (w,.value (some ret))
  | .absent before after => .ok ({ w with bucket := before ++ newNode :: after },.value none)

def insert (key : K) (newNode : Addr) :
    Except Fault (Section K V × Result V) :=
  match search w.content key [] w.bucket with
  | .equal _ _ _ => do
    let w ← w.delete al newNode
    return (w,.flag false)
  | .absent before after => .ok ({ w with bucket := before ++ newNode :: after },.flag true)

def remove (key : K) :
    Except Fault (Section K V × Result V) :=
  match search w.content key [] w.bucket with
  | .equal before curr after => do
    let ret := (w.content curr).val
    let w ← { w with bucket := before ++ after }.delete al curr
    return (w,.value (some ret))
  | .absent _ _ => .ok (w,.value none)

/-- The call between the construction and the destruction of the holders. -/
def body :
    Call K V → Option Addr → Except Fault (Section K V × Result V)
  | .get key, _ => .ok (w,.value (lookup w.content key w.bucket))
  | .put key val, some newNode => w.put al key val newNode
  | .insert key _, some newNode => w.insert al key newNode
  | .remove key, _ => w.remove al key
  | _, none => .error .nullPointer

end Section

/-- Where a thread is in a call. Between two calls it has the result of the last one; a call has
its new node, and from the start of its operation the epoch of that. -/
inductive Pc (K V : Type) where
  | idle (last : Option (Result V))
  | called (call : Call K V) (newNode : Option Addr)
  | inside (call : Call K V) (newNode : Option Addr) (c : Nat)
  deriving DecidableEq

/-- The table: block headers and contents, the global epoch, the list and the lock of each
bucket, and the threads. -/
structure State (K V : Type) where
  mem : Memory
  content : Addr → Payload K V
  epoch : Nat
  buckets : Nat → List Addr
  lock : Nat → Option Nat
  thread : Nat → Thread
  pc : Nat → Pc K V
  crashed : Option Fault

def init (content : Addr → Payload K V) : State K V where
  mem := ⟨fun _ => ⟨none,nullEpoch,.init,0,0,0⟩,∅,[]⟩
  content := content
  epoch := initEpoch
  buckets := fun _ => []
  lock := fun _ => none
  thread := fun t => ⟨none,[],[],t,0,0⟩
  pc := fun _ => .idle none
  crashed := none

/-- The steps: the construction of a call's node, the start of its critical section together
with `begin_op`, the rest of that section; and the epoch advances, or a block leaves a
to-be-freed container. -/
inductive Act (K V : Type) where
  | invoke (t : Nat) (call : Call K V) (al : Allocator)
  | enter (t id : Nat)
  | finish (t : Nat) (al : Allocator)
  | advance
  | drain (b : Addr) (c : Nat)

namespace State

def goto (s : State K V) (t : Nat) (pc : Pc K V) : State K V :=
  { s with pc := update s.pc t pc }

/-- `new ListNode(this, key, val)`, outside an operation. -/
def newNode (k : Kind) (al : Allocator) (s : State K V) (t : Nat) (key : K) (val : V) :
    Except Fault (State K V × Addr) := do
  let a := al.fresh s.mem.allocated
  let (mem,thread) ← s.mem.call (s.thread t) (pnew k · · a)
  return ({ s with
    mem := mem
    content := update s.content a ⟨key,val⟩
    thread := update s.thread t thread },a)

def invoke (k : Kind) (al : Allocator) (s : State K V) (t : Nat) (call : Call K V) :
    Except Fault (State K V) :=
  match call with
  | .put key val | .insert key val => do
    let (s,a) ← s.newNode k al t key val
    return s.goto t (.called call (some a))
  | .get _ | .remove _ => .ok (s.goto t (.called call none))

variable (hash : K → Nat) (idxSize : Nat)

/-- The lock of the bucket is taken and the operation begins. That of `get` is held by a
temporary, and ends at once. -/
def enter (k : Kind) (s : State K V) (t id : Nat) (call : Call K V) (newNode : Option Addr) :
    Except Fault (State K V) := do
  let (mem,thread) ← s.mem.call { s.thread t with nextId := id } (beginOp k · · s.epoch [])
  let (mem,thread) ← match call with
    | .get _ => mem.call thread fun _ th => endReadonlyOp th
    | _ => .ok (mem,thread)
  return { s with
    mem := mem
    lock := update s.lock (hash call.key % idxSize) (some t)
    thread := update s.thread t thread }.goto t (.inside call newNode s.epoch)

/-- The body of the call, the end of its operation and the release of the lock. -/
def finish (k : Kind) (al : Allocator) (s : State K V) (t : Nat) (call : Call K V)
    (newNode : Option Addr) : Except Fault (State K V) := do
  let idx := hash call.key % idxSize
  let (w,ret) ← Section.body al ⟨s.mem,s.content,s.thread t,s.buckets idx⟩ call newNode
  let (mem,thread) ← match call with
    | .get _ => .ok (w.mem,w.thread)
    | _ => w.mem.call w.thread (endOp k · · [])
  return { s with
    mem := mem
    content := w.content
    buckets := update s.buckets idx w.bucket
    lock := update s.lock idx none
    thread := update s.thread t thread }.goto t (.idle (some ret))

def attempt (s : State K V) : Except Fault (State K V) → State K V
  | .ok s' => s'
  | .error f => { s with crashed := some f }

end State

def Unused (m : Memory) (id : Nat) : Prop :=
  ∀ x ∈ m.allocated, (m.heap x).epoch ≠ nullEpoch → (m.heap x).id ≠ id

instance (m : Memory) (id : Nat) : Decidable (Unused m id) :=
  inferInstanceAs (Decidable (∀ x ∈ m.allocated, _))

variable (k : Kind) (hash : K → Nat) (idxSize : Nat)

def step (s : State K V) : Act K V → Option (State K V)
  | .invoke t call al =>
    match s.crashed, s.pc t with
    | none, .idle _ => some (s.attempt (s.invoke k al t call))
    | _, _ => none
  | .enter t id =>
    match s.crashed, s.pc t with
    | none, .called call newNode =>
      -- the generator hands out new ids, and the mutex excludes other holders
      if Unused s.mem id ∧ s.lock (hash call.key % idxSize) = none then
        some (s.attempt (s.enter hash idxSize k t id call newNode))
      else none
    | _, _ => none
  | .finish t al =>
    match s.crashed, s.pc t with
    | none, .inside call newNode _ => some (s.attempt (s.finish hash idxSize k al t call newNode))
    | _, _ => none
  | .advance => if s.crashed = none then some { s with epoch := s.epoch + 1 } else none
  | .drain b c =>
    if s.crashed = none ∧ b ∈ s.mem.waiting then some { s with mem := s.mem.drain b c } else none

def contents (s : State K V) (key : K) : Option V :=
  lookup s.content key (s.buckets (hash key % idxSize))

end Montage.MontageHashTable
