import Montage.Library.Chains
import Montage.Library.Maps
import Montage.Library.Runs
import Montage.EpochSys.Calls

namespace Montage.SSHashTable
open Library Function
open Maps (Result)

/-- The loop of `reverse_bits`, with `i` rounds to go. -/
def reverseLoop : (i : Nat) → (ans n : BitVec 64) → BitVec 64
  | 0, ans, _ => ans
  | i + 1, ans, n => reverseLoop i (ans ||| (n &&& 1) <<< i) (n >>> 1)

def reverseBits (n : BitVec 64) : BitVec 64 := reverseLoop 64 0 n

def soRegularkey (key : BitVec 64) : BitVec 64 := reverseBits (key ||| 1 <<< 63)

def soDummykey (bucket : Nat) : BitVec 64 := reverseBits (BitVec.ofNat 64 bucket)

/-- `get_parent` clears the most significant bit; for bucket 0 there is nothing to clear. -/
def getParent (bucket : Nat) : Nat := if bucket = 0 then 0 else bucket - 2 ^ bucket.log2

/-- A `Node`. Dummy nodes have no payload. -/
structure Node (K V : Type) where
  soK : BitVec 64
  payload : Option (K × V)

structure Link where
  ptr : Option Addr
  mark : Bool
  deriving DecidableEq

inductive Cell where
  | bucket (i : Nat)
  | next (a : Addr)
  deriving DecidableEq

/-- The calls that are implemented. -/
inductive Call (K V : Type) where
  | get (key : K)
  | insert (key : K) (val : V)
  | remove (key : K)

def Call.toMap : Call K V → Maps.Call K V
  | .get key => .get key
  | .insert key val => .insert key val
  | .remove key => .remove key

def Call.key (call : Call K V) : K := call.toMap.key

def Call.effect (call : Call K V) : Option V → Option V × Result V := call.toMap.effect

/-- An access beyond the bucket array, a pointer that must not be null, or a loop that does not
end. -/
inductive Fault where
  | outOfRange (bucket : Nat)
  | nullPointer
  | endless
  deriving DecidableEq

/-- The table as its only thread finds it: the nodes made so far lie below `fresh`, and
`last` is what the last call returned. -/
structure State (K V : Type) where
  node : Addr → Node K V
  cell : Cell → Link
  fresh : Addr
  size : Nat
  count : Int
  last : Option (Result V)
  fault : Option Fault

variable {K V : Type} [DecidableEq K] [Inhabited K]

def init (k : Nat) (node : Addr → Node K V) : State K V where
  node := node
  cell := fun _ => ⟨none,false⟩
  fresh := 0
  size := 2 ^ k
  count := 0
  last := none
  fault := none

namespace State

def set (s : State K V) (c : Cell) (p : Option Addr) (mark : Bool) : State K V :=
  { s with cell := update s.cell c ⟨p,mark⟩ }

/-- `get_key`: the key of a dummy node is `K()`. -/
def getKey (s : State K V) (a : Addr) : K := ((s.node a).payload.map Prod.fst).getD default

def newNode (s : State K V) (n : Node K V) : State K V × Addr :=
  ({ s with
    node := update s.node s.fresh n
    cell := update s.cell (.next s.fresh) ⟨none,false⟩
    fresh := s.fresh + 1 },s.fresh)

end State

/-- `prev[tid]` and `curr[tid]` when `list_find` returns, and whether it has found the key. -/
structure Found where
  found : Bool
  prev : Cell
  curr : Option Addr

/-- The loops of `list_find` from `prev` and `curr` on, for so many rounds. -/
def findLoop (head : Cell) (soK : BitVec 64) (key : K) : (rounds : Nat) → State K V → Cell →
    Option Addr → Except Fault (State K V × Found)
  | 0, _, _, _ => .error .endless
  | _ + 1, s, prev, none => .ok (s,⟨false,prev,none⟩)
  | rounds + 1, s, prev, some curr =>
    let next := s.cell (.next curr)
    if s.cell prev ≠ ⟨some curr,false⟩ then
      findLoop head soK key rounds s head (s.cell head).ptr
    else if next.mark then
      -- the node is deleted, unlink it
      findLoop head soK key rounds (s.set prev next.ptr false) prev next.ptr
    else if (s.node curr).soK > soK then .ok (s,⟨false,prev,some curr⟩)
    else if (s.node curr).soK = soK ∧ s.getKey curr = key then .ok (s,⟨true,prev,some curr⟩)
    else findLoop head soK key rounds s (.next curr) next.ptr

/-- `list_find`. No list is longer than the number of nodes. -/
def listFind (s : State K V) (head : Cell) (soK : BitVec 64) (key : K) :
    Except Fault (State K V × Found) :=
  findLoop head soK key (s.fresh + 1) s head (s.cell head).ptr

/-- `list_insert`, with `curr[tid]` for the caller. An attempt that fails at its `CAS_verify`
changes nothing and is made again. -/
def listInsert (s : State K V) (head : Cell) (node : Addr) :
    Except Fault (State K V × Bool × Option Addr) := do
  let (s,r) ← listFind s head (s.node node).soK (s.getKey node)
  if r.found then return (s,false,r.curr)
  else return ((s.set (.next node) r.curr false).set r.prev (some node) false,true,r.curr)

/-- `list_delete`: mark the node, then unlink it. -/
def listDelete (s : State K V) (head : Cell) (soK : BitVec 64) (key : K) :
    Except Fault (State K V × Option V) := do
  let (s,r) ← listFind s head soK key
  if ¬r.found then return (s,none)
  else match r.curr with
  | none => throw .nullPointer
  | some curr =>
    match (s.node curr).payload with
    | none => throw .nullPointer
    | some (_,val) =>
      let next := (s.cell (.next curr)).ptr
      return ((s.set (.next curr) next true).set r.prev next false,some val)

/-- The end of `initialize_bucket`: the dummy for a bucket goes into the list of its parent. The
compare-and-swap is also on the parent, and expects a null pointer. -/
def linkDummy (s : State K V) (bucket parent : Nat) : Except Fault (State K V) := do
  let (s,dummy) := s.newNode ⟨soDummykey bucket,none⟩
  let (s,inserted,curr) ← listInsert s (.bucket parent) dummy
  let dummy := if inserted then some dummy else curr
  if s.cell (.bucket parent) = ⟨none,false⟩ then return s.set (.bucket parent) dummy false
  else return s

/-- `initialize_bucket`. Each round goes to a smaller bucket. -/
def initializeBucket : (rounds : Nat) → State K V → Nat → Except Fault (State K V)
  | 0, _, _ => .error .endless
  | rounds + 1, s, bucket => do
    let parent := getParent bucket
    let s ← if parent ≠ 0 ∧ (s.cell (.bucket parent)).ptr = none then
        initializeBucket rounds s parent
      else .ok s
    linkDummy s bucket parent

section Calls
variable (hash : K → BitVec 64) (capacity : Nat) (s : State K V)

def openBucket (bucket : Nat) : Except Fault (State K V) :=
  if capacity ≤ bucket then .error (.outOfRange bucket)
  else if (s.cell (.bucket bucket)).ptr = none then initializeBucket (bucket + 1) s bucket
  else .ok s

def index (key : K) : Nat := (hash key).toNat % s.size

/-- The counter is a 32-bit number, and `int` division truncates. -/
def countUp : State K V := { s with
  count := (s.count + 1).bmod (2 ^ 32)
  size := if s.count.tdiv s.size > 3 then 2 * s.size else s.size }

def insert (key : K) (val : V) : Except Fault (State K V × Result V) := do
  let (s,node) := s.newNode ⟨soRegularkey (hash key),some (key,val)⟩
  let bucket := index hash s key
  let s ← openBucket capacity s bucket
  let (s,inserted,_) ← listInsert s (.bucket bucket) node
  if inserted then return (countUp s,.flag true) else return (s,.flag false)

def get (key : K) : Except Fault (State K V × Result V) := do
  let bucket := index hash s key
  let s ← openBucket capacity s bucket
  let (s,r) ← listFind s (.bucket bucket) (soRegularkey (hash key)) key
  if ¬r.found then return (s,.value none)
  else match r.curr with
  | none => throw .nullPointer
  | some curr =>
    match (s.node curr).payload with
    | none => throw .nullPointer
    | some (_,val) => return (s,.value (some val))

def remove (key : K) : Except Fault (State K V × Result V) := do
  let bucket := index hash s key
  let s ← openBucket capacity s bucket
  let (s,res) ← listDelete s (.bucket bucket) (soRegularkey (hash key)) key
  return (if res.isSome then { s with count := (s.count - 1).bmod (2 ^ 32) } else s,.value res)

def perform : Call K V → Except Fault (State K V × Result V)
  | .get key => get hash capacity s key
  | .insert key val => insert hash capacity s key val
  | .remove key => remove hash capacity s key

def step (call : Call K V) : Option (State K V) :=
  if s.fault ≠ none then none
  else match perform hash capacity s call with
  | .ok (s',r) => some { s' with last := some r }
  | .error f => some { s with last := none, fault := some f }

end Calls

def outcome (m : K → Option V) (calls : List (Call K V)) : K → Option V :=
  calls.foldl (fun m call => update m call.key (call.effect (m call.key)).1) m

def answers (m : K → Option V) : List (Call K V) → List (Result V)
  | [] => []
  | call :: calls => (call.effect (m call.key)).2 ::
      answers (update m call.key (call.effect (m call.key)).1) calls

end Montage.SSHashTable
