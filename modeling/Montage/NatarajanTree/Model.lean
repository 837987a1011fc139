import Montage.Library.Maps
import Montage.Library.Paths
import Montage.Library.Runs
import Montage.Recoverable.Pending

namespace Montage.NatarajanTree
open Library Library.Maps Function

inductive Level where
  | finite
  | inf0
  | inf1
  | inf2
  deriving DecidableEq

def Level.toInt : Level → Int
  | .finite => -1
  | .inf0 => 0
  | .inf1 => 1
  | .inf2 => 2

inductive Side where
  | left
  | right
  deriving DecidableEq

def Side.other : Side → Side
  | .left => .right
  | .right => .left

/-- What lies in `left` or `right`: a pointer with its flag and its tag. -/
structure Edge where
  ptr : Option Nat
  flg : Bool
  tg : Bool
  deriving DecidableEq

def Edge.plain (n : Nat) : Edge := ⟨some n,false,false⟩

def Edge.pair (left right : Nat) : Side → Edge
  | .left => .plain left
  | .right => .plain right

/-- The fields of a `Node` besides its pointers. Only leaves have a payload. -/
structure Node (K V : Type) where
  level : Level
  key : K
  payload : Option V

structure SeekRecord where
  ancestor : Nat
  successor : Nat
  parent : Nat
  leaf : Nat
  deriving DecidableEq

/-- Where a thread is in its operation: in `seek`, after it, at one of its writes, or in
`cleanup`, from `child` to `splice`. A null pointer or a failed assertion leads to `failed`. -/
inductive At (V : Type) where
  | seek
  | first (leaf : Nat)
  | enter (leaf : Nat) (parentField : Edge)
  | walk (record : SeekRecord) (parentField currentField : Edge)
  | sought (record : SeekRecord)
  | link (record : SeekRecord)
  | replace (record : SeekRecord)
  | inject (record : SeekRecord)
  | help (record : SeekRecord)
  | child (record : SeekRecord)
  | sibling (record : SeekRecord)
  | untagged (record : SeekRecord) (tmpChild : Nat) (sibling : Side)
  | tag (record : SeekRecord) (tmpChild : Nat) (sibling : Side) (untagged : Edge)
  | tagged (record : SeekRecord) (tmpChild : Nat) (sibling : Side)
  | splice (record : SeekRecord) (tmpChild : Nat) (tmpSibling : Edge)
  | returned (res : Result V)
  | failed
  deriving DecidableEq

/-- A thread is idle or runs an operation, with `newInternal` and `newLeaf`, and with the leaf
that it has flagged and its value once `remove` is no longer injecting. -/
inductive Pc (K V : Type) where
  | idle
  | run (op : Call K V) (new : Option (Nat × Nat)) (flagged : Option (Nat × Option V)) (here : At V)
  deriving DecidableEq

structure Thread (K V : Type) extends Recoverable.PendingLists where
  pc : Pc K V

/-- Nodes are numbered as they are made, since a number stands for the use of a node that is
not reused while an operation can reach it. The payload of node `n` is payload `n`. -/
structure State (K V : Type) extends Recoverable.Payloads where
  node : Nat → Node K V
  edge : Nat → Side → Edge
  made : Nat
  thread : Nat → Thread K V

/-- The nodes `r` and `s`. -/
def nodeR : Nat := 0

def nodeS : Nat := 1

def sentinelLevel : Nat → Level
  | 0 | 2 => .inf2
  | 1 | 3 => .inf1
  | _ => .inf0

def sentinelEdge : Nat → Side → Edge
  | 0, .left => .plain 1
  | 0, .right => .plain 2
  | 1, .left => .plain 4
  | 1, .right => .plain 3
  | _, _ => ⟨none,false,false⟩

def init (memory : Nat → Node K V) : State K V where
  node := fun n => { memory n with level := sentinelLevel n, payload := none }
  edge := sentinelEdge
  made := 5
  committed := ∅
  retired := ∅
  thread := fun _ => ⟨.empty,.idle⟩

section
variable (s : State K V)

def State.put (t : Nat) (th : Thread K V) : State K V :=
  { s with thread := update s.thread t th }

def State.goto (t : Nat) (pc : Pc K V) : State K V :=
  s.put t { s.thread t with pc := pc }

def State.store (n : Nat) (side : Side) (e : Edge) : State K V :=
  { s with edge := update s.edge n (update (s.edge n) side e) }

/-- A successful `CAS_verify` ends the operation. -/
def State.commit (t : Nat) (pc : Pc K V) : State K V :=
  { s with
    toPayloads := s.endOp (s.thread t).toPendingLists
    thread := update s.thread t ⟨.empty,pc⟩ }

def State.abort (t : Nat) (pc : Pc K V) : State K V :=
  s.put t { s.thread t with toPendingLists := (s.thread t).abortOp, pc := pc }

def State.retirePayload (t n : Nat) : State K V :=
  s.put t { s.thread t with toPendingLists := (s.thread t).pretire n }

/-- What `retire_payload` asserts. -/
def State.retirable (n : Nat) : Bool :=
  (s.node n).level = .finite && (s.node n).payload.isSome

/-- `new Node` twice, with `pnew` for the payload of the leaf. -/
def State.newNodes (key : K) (val : V) : State K V :=
  { s with
    node := update
      (update s.node s.made { s.node s.made with level := .inf2, payload := none })
      (s.made + 1) ⟨.finite,key,some val⟩
    edge := update (update s.edge s.made fun _ => ⟨none,false,false⟩)
      (s.made + 1) fun _ => ⟨none,false,false⟩
    made := s.made + 2 }

end

variable [LinearOrder K] (s : State K V)

def State.nodeLess (key : K) (n : Nat) : Bool :=
  Level.finite.toInt < (s.node n).level.toInt ||
    ((s.node n).level = .finite && key < (s.node n).key)

def State.nodeEqual (key : K) (n : Nat) : Bool :=
  if (s.node n).level = .finite then key = (s.node n).key else false

def State.side (key : K) (n : Nat) : Side :=
  if s.nodeLess key n then .left else .right

/-- `newInternal->set` for the two leaves that it is to have. -/
def State.setInternal (newInternal newLeaf leaf : Nat) (key : K) : State K V :=
  let set := if (s.node leaf).level ≠ .finite then
      { s.node newInternal with level := (s.node leaf).level }
    else { s.node newInternal with level := .finite, key := max key (s.node leaf).key }
  let newLeft := if s.nodeLess key leaf then newLeaf else leaf
  let newRight := if s.nodeLess key leaf then leaf else newLeaf
  { s with
    node := update s.node newInternal set
    edge := update s.edge newInternal (Edge.pair newLeft newRight) }

def afterSeek (t : Nat) (op : Call K V) (new : Option (Nat × Nat))
    (flagged : Option (Nat × Option V)) (record : SeekRecord) : State K V :=
  let goto := fun here => s.goto t (.run op new flagged here)
  let equal := s.nodeEqual op.key record.leaf
  let val := (s.node record.leaf).payload
  match op, new, flagged with
  | .get _, _, _ => goto (.returned (.value (if equal then val else none)))
  | .insert _ _, some (newInternal,newLeaf), _ =>
    if equal then
      -- `delete newLeaf`, with its payload
      s.put t { s.thread t with
        toPendingLists := (s.thread t).pdelete newLeaf
        pc := .run op new flagged (.returned (.flag false)) }
    else (s.setInternal newInternal newLeaf record.leaf op.key).goto t
      (.run op new flagged (.link record))
  | .put _ _, some (newInternal,newLeaf), _ =>
    if equal then goto (.replace record)
    else (s.setInternal newInternal newLeaf record.leaf op.key).goto t
      (.run op new flagged (.link record))
  | .remove _, _, none =>
    if equal then goto (.inject record) else goto (.returned (.value none))
  | .remove _, _, some (leaf,res) =>
    if record.leaf ≠ leaf then goto (.returned (.value res)) else goto (.child record)
  | .insert _ _, none, _ | .put _ _, none, _ => goto .failed

/-- Where a thread goes on after `cleanup`. Only a `remove` that has flagged its leaf looks at
the result. -/
def afterCleanup (flagged : Option (Nat × Option V)) (done : Bool) : At V :=
  match flagged with
  | none => .seek
  | some (_,res) => if done then .returned (.value res) else .seek

def linked : Call K V → Result V
  | .insert _ _ => .flag true
  | .get _ | .put _ _ | .remove _ => .value none

/-- The next access of a thread that runs `op`. `fails` says that `CAS_verify` fails for an
epoch change, or `CAS` for a descriptor. -/
def advance (t : Nat) (fails : Bool) (op : Call K V) (new : Option (Nat × Nat))
    (flagged : Option (Nat × Option V)) (here : At V) : State K V :=
  let pc := fun here => Pc.run op new flagged here
  let goto := fun here => s.goto t (pc here)
  match here with
  | .seek =>
    match (s.edge nodeS .left).ptr with
    | none => goto .failed
    | some leaf => goto (.first leaf)
  | .first leaf => goto (.enter leaf (s.edge nodeS .left))
  | .enter leaf parentField =>
    goto (.walk ⟨nodeR,nodeS,nodeS,leaf⟩ parentField (s.edge leaf .left))
  | .walk record parentField currentField =>
    match currentField.ptr with
    | none => goto (.sought record)
    | some current =>
      let record := if parentField.tg then record
        else { record with ancestor := record.parent, successor := record.leaf }
      goto (.walk { record with parent := record.leaf, leaf := current } currentField
        (s.edge current (s.side op.key current)))
  | .sought record => afterSeek s t op new flagged record
  | .link record =>
    match new with
    | none => goto .failed
    | some (newInternal,_) =>
      let side := s.side op.key record.parent
      if !fails && s.edge record.parent side = .plain record.leaf then
        (s.commit t (pc (.returned (linked op)))).store record.parent side (.plain newInternal)
      else s.abort t (pc (.help record))
  | .replace record =>
    match new with
    | none => goto .failed
    | some (_,newLeaf) =>
      if !s.retirable record.leaf then goto .failed
      else
        let side := s.side op.key record.parent
        if !fails && s.edge record.parent side = .plain record.leaf then
          ((s.retirePayload t record.leaf).commit t
            (pc (.returned (.value (s.node record.leaf).payload)))).store record.parent side
              (.plain newLeaf)
        else (s.retirePayload t record.leaf).abort t (pc .seek)
  | .inject record =>
    let side := s.side op.key record.parent
    if !fails && s.edge record.parent side = .plain record.leaf then
      (s.store record.parent side ⟨some record.leaf,true,false⟩).goto t
        (.run op new (some (record.leaf,(s.node record.leaf).payload)) (.child record))
    else goto (.help record)
  | .help record =>
    let tmpChild := s.edge record.parent (s.side op.key record.parent)
    if tmpChild.ptr = some record.leaf && (tmpChild.flg || tmpChild.tg) then goto (.child record)
    else goto .seek
  | .child record =>
    let side := s.side op.key record.parent
    let tmpChild := s.edge record.parent side
    if tmpChild.flg then
      match tmpChild.ptr with
      | none => goto .failed
      | some n => goto (.untagged record n side.other)
    else goto (.sibling record)
  | .sibling record =>
    let side := s.side op.key record.parent
    match (s.edge record.parent side.other).ptr with
    | none => goto .failed
    | some n => goto (.untagged record n side)
  | .untagged record tmpChild sibling =>
    let untagged := s.edge record.parent sibling
    if untagged.tg then goto (.tagged record tmpChild sibling)
    else goto (.tag record tmpChild sibling untagged)
  | .tag record tmpChild sibling untagged =>
    if !fails && s.edge record.parent sibling = untagged then
      (s.store record.parent sibling { untagged with tg := true }).goto t
        (pc (.tagged record tmpChild sibling))
    else goto (.untagged record tmpChild sibling)
  | .tagged record tmpChild sibling =>
    goto (.splice record tmpChild (s.edge record.parent sibling))
  | .splice record tmpChild tmpSibling =>
    if !s.retirable tmpChild then goto .failed
    else
      let side := s.side op.key record.ancestor
      if !fails && s.edge record.ancestor side = .plain record.successor then
        ((s.retirePayload t tmpChild).commit t (pc (afterCleanup flagged true))).store
          record.ancestor side { tmpSibling with tg := false }
      else (s.retirePayload t tmpChild).abort t (pc (afterCleanup flagged false))
  | .returned _ => s.goto t .idle
  | .failed => s

inductive Act (K V : Type) where
  | call (t : Nat) (op : Call K V)
  | tick (t : Nat) (fails : Bool)

def call (t : Nat) (op : Call K V) : State K V :=
  match op.made with
  | none => s.goto t (.run op none none .seek)
  | some v =>
    (s.newNodes op.key v).put t { s.thread t with
      toPendingLists := (s.thread t).pnew (s.made + 1)
      pc := .run op (some (s.made,s.made + 1)) none .seek }

def step : Act K V → Option (State K V)
  | .call t op =>
    match (s.thread t).pc with
    | .idle => some (call s t op)
    | .run _ _ _ _ => none
  | .tick t fails =>
    match (s.thread t).pc with
    | .idle => none
    | .run op new flagged here => some (advance s t fails op new flagged here)

def State.next (n : Nat) (side : Side) : Option Nat := (s.edge n side).ptr

def Leaf (n : Nat) : Prop :=
  Reach s.next nodeR n ∧ (s.node n).level = .finite ∧ ∀ side, s.next n side = none

def At.done : At V → Bool
  | .returned _ => true
  | _ => false

def Pc.fresh : Pc K V → Option (Nat × Nat)
  | .run _ new _ here => if here.done then none else new
  | .idle => none

/-- The payloads that are registered and not retired are those of the leaves; a key has one of
them at most, and none belongs to a leaf that is still to be linked. -/
structure Mirrors : Prop where
  durable : ∀ n, n ∈ s.committed ∧ n ∉ s.retired ↔ Leaf s n
  keys : ∀ n m, n ∈ s.committed ∧ n ∉ s.retired → m ∈ s.committed ∧ m ∉ s.retired →
    (s.node n).key = (s.node m).key → n = m
  pending : ∀ t newInternal newLeaf, (s.thread t).pc.fresh = some (newInternal,newLeaf) →
    newLeaf ∉ s.committed

/-- A `cleanup` that is about to unlink something does so for a `remove`, which has nothing
pending, and unlinks `parent` alone. -/
def isExact : Act K V → Bool
  | .call _ _ => true
  | .tick t fails =>
    match (s.thread t).pc with
    | .run op _ _ (.splice record _ _) =>
      if !fails && s.edge record.ancestor (s.side op.key record.ancestor) =
          .plain record.successor then
        op.made.isNone && record.successor = record.parent
      else true
    | _ => true

end Montage.NatarajanTree
