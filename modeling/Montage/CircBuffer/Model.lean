import Mathlib.Logic.Function.Basic
import Mathlib.Algebra.Group.Nat.Defs

namespace Montage.CircBuffer

/-- A node of an array that `new Node[cap]` has made, by the number of the array. -/
structure Ptr where
  chunk : Nat
  index : Nat
  deriving DecidableEq

structure Node (T : Type) where
  payload : T
  next : Option Ptr

/-- `cap` is an `int`. The vector `chunks`, which only the destructor reads, is left out; of each
array its length is kept. -/
structure State (T : Type) where
  cap : BitVec 32
  head : Ptr
  tail : Ptr
  node : Ptr → Node T
  lengths : List Nat

variable {T : Type}

namespace State

variable (s : State T)

def Valid (p : Ptr) : Prop := p.index < s.lengths.getD p.chunk 0

instance (p : Ptr) : Decidable (s.Valid p) := inferInstanceAs (Decidable (_ < _))

def load (p : Ptr) : Option (Node T) := if s.Valid p then some (s.node p) else none

def store (p : Ptr) (n : Node T) : Option (State T) :=
  if s.Valid p then some { s with node := Function.update s.node p n } else none

/-- The node that `next_node` finds behind `p`. -/
def succ (p : Ptr) : Ptr := (s.node p).next.getD ⟨p.chunk,p.index + 1⟩

def nextNode (p : Ptr) : Option Ptr := if s.Valid p then some (s.succ p) else none

/-- `new Node[cap]`, which throws `std::bad_array_new_length` for a negative `cap`. -/
def newNodes [Inhabited T] : Option (State T) :=
  if s.cap.toInt < 0 then none
  else some { s with
    node := fun p => if p.chunk = s.lengths.length then ⟨default,none⟩ else s.node p
    lengths := s.lengths ++ [s.cap.toNat] }

def linkLast (p q : Ptr) : Option (State T) := do
  let last : Ptr := ⟨p.chunk,p.index + (s.cap.toNat - 1)⟩
  let n ← s.load last
  s.store last { n with next := some q }

/-- `push` finds the buffer full: a new array goes between tail and head. -/
def grow [Inhabited T] : Option (State T) := do
  let chunk : Ptr := ⟨s.lengths.length,0⟩
  let s ← s.newNodes
  let n ← s.load s.tail
  let s ← s.store s.tail { n with next := some chunk }
  let s ← s.linkLast chunk s.head
  some { s with cap := s.cap <<< 1, tail := chunk }

def push [Inhabited T] (x : T) : Option (State T) := do
  let n ← s.load s.tail
  let s ← s.store s.tail { n with payload := x }
  let nextTail ← s.nextNode s.tail
  if nextTail = s.head then s.grow else some { s with tail := nextTail }

/-- `try_pop(T&)`. The result is the popped element, or `none` where `false` is returned. -/
def tryPop : Option (State T × Option T) :=
  if s.head = s.tail then some (s,none)
  else do
    let n ← s.load s.head
    let next ← s.nextNode s.head
    some ({ s with head := next },some n.payload)

/-- `try_pop(func)`, where `func` turns its argument into `func x`. The result is what `func` is
called with, or `none` where it is not called and `false` is returned. -/
def tryPopFunc (func : T → T) : Option (State T × Option T) :=
  if s.head = s.tail then some (s,none)
  else do
    let n ← s.load s.head
    let s ← s.store s.head { n with payload := func n.payload }
    let next ← s.nextNode s.head
    some ({ s with head := next },some n.payload)

def clear : State T := { s with head := s.tail }

end State

/-- The constructor, with an initial capacity in place of `CIRCBUFFER_DEF_CAP`. -/
def init [Inhabited T] (cap : BitVec 32) : Option (State T) := do
  let head : Ptr := ⟨0,0⟩
  let s ← State.newNodes ⟨cap,head,head,fun _ => ⟨default,none⟩,[]⟩
  s.linkLast head head

inductive Op (T : Type) where
  | push (x : T)
  | tryPop
  | tryPopFunc (func : T → T)
  | clear

inductive Result (T : Type) where
  | done
  | popped (x : Option T)

def State.perform [Inhabited T] (s : State T) : Op T → Option (State T × Result T)
  | .push x => (s.push x).map fun s => (s,.done)
  | .tryPop => s.tryPop.map fun r => (r.1,.popped r.2)
  | .tryPopFunc func => (s.tryPopFunc func).map fun r => (r.1,.popped r.2)
  | .clear => some (s.clear,.done)

def State.results [Inhabited T] (s : State T) : List (Op T) → Option (List (Result T))
  | [] => some []
  | op :: ops => (s.perform op).bind fun r => (r.1.results ops).map fun rs => r.2 :: rs

def Queue.perform (q : List T) : Op T → List T × Result T
  | .push x => (q ++ [x],.done)
  | .tryPop | .tryPopFunc _ => (q.tail,.popped q.head?)
  | .clear => ([],.done)

def Queue.after (q : List T) (op : Op T) : List T := (Queue.perform q op).1

def Queue.results (q : List T) : List (Op T) → List (Result T)
  | [] => []
  | op :: ops => (Queue.perform q op).2 :: Queue.results (Queue.after q op) ops

def Queue.contents (q : List T) : List (Op T) → List (List T)
  | [] => [q]
  | op :: ops => q :: Queue.contents (Queue.after q op) ops

end Montage.CircBuffer
