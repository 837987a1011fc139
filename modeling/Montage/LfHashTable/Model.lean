import Montage.Library.Chains
import Montage.Library.Runs
import Montage.Recoverable.Pending

namespace Montage.LfHashTable
open Library Function

inductive Op (K V : Type) where
  | get (key : K)
  | put (key : K) (val : V)
  | insert (key : K) (val : V)
  | remove (key : K)
  | replace (key : K) (val : V)
  deriving DecidableEq

/-- What an operation returns: `insert` a flag, the others a value or nothing. -/
inductive Res (V : Type) where
  | val (v : Option V)
  | flag (b : Bool)
  deriving DecidableEq

def Op.key : Op K V → K
  | .get key | .put key _ | .insert key _ | .remove key | .replace key _ => key

def Op.newVal : Op K V → Option V
  | .put _ val | .insert _ val | .replace _ val => some val
  | .get _ | .remove _ => none

def Op.apply : Op K V → Option V → Res V × Option V
  | .get _, old => (.val old,old)
  | .put _ val, old => (.val old,some val)
  | .insert _ val, none => (.flag true,some val)
  | .insert _ _, some old => (.flag false,some old)
  | .remove _, old => (.val old,none)
  | .replace _ val, some old => (.val (some old),some val)
  | .replace _ _, none => (.val none,none)

/-- What holds a pointer: a bucket or the `next` of a node. -/
inductive Loc where
  | bucket (i : Nat)
  | node (n : Nat)
  deriving DecidableEq

structure Link where
  ptr : Option Nat
  mark : Bool
  deriving DecidableEq

/-- Where a thread is in its operation, with `prev`, `curr` and `next`. In `findNode`, `help`
is the result of an operation that only calls it to unlink what it has marked. -/
inductive At (V : Type) where
  | find (help : Option (Res V))
  | scan (help : Option (Res V)) (prev : Loc) (curr : Option Nat)
  | check (help : Option (Res V)) (prev : Loc) (curr : Nat) (next : Link)
  | unlink (help : Option (Res V)) (prev : Loc) (curr : Nat) (next : Option Nat)
  | found (prev : Loc) (curr : Nat) (next : Option Nat)
  | mark (prev : Loc) (curr : Nat) (next new : Option Nat) (res : Res V)
  | swing (prev : Loc) (curr : Nat) (new : Option Nat) (res : Res V)
  | missed (prev : Loc) (curr : Option Nat)
  | link (prev : Loc) (curr : Option Nat) (res : Res V)
  | returned (res : Res V)
  deriving DecidableEq

inductive Pc (K V : Type) where
  | idle
  | run (op : Op K V) (tmp : Option Nat) (here : At V)
  deriving DecidableEq

/-- What a thread has pending. For the statements: the result that goes with the update its
`CAS_verify` has performed. -/
structure Pending (V : Type) extends Recoverable.PendingLists where
  done : Option (Res V)

structure Thread (K V : Type) extends Pending V where
  pc : Pc K V

/-- Nodes are numbered as they are made, since a number stands for the use of a node that is
not reused while an operation can reach it. The key and the payload of a node do not change,
and the payload of node `n` is payload `n`. -/
structure State (K V : Type) extends Recoverable.Payloads where
  word : Loc → Link
  key : Nat → K
  val : Nat → V
  made : Nat
  thread : Nat → Thread K V

structure Table (K : Type) where
  hash : K → Nat
  idxSize : Nat

def Table.idx (T : Table K) (key : K) : Nat := T.hash key % T.idxSize

def init (key : Nat → K) (val : Nat → V) : State K V where
  word := fun _ => ⟨none,false⟩
  key := key
  val := val
  made := 0
  committed := ∅
  retired := ∅
  thread := fun _ => ⟨⟨.empty,none⟩,.idle⟩

variable (s : State K V)

def State.put (t : Nat) (th : Thread K V) : State K V :=
  { s with thread := update s.thread t th }

def State.goto (t : Nat) (pc : Pc K V) : State K V :=
  s.put t { s.thread t with pc := pc }

def State.store (x : Loc) (w : Link) : State K V :=
  { s with word := update s.word x w }

/-- The `next` of a node that is not linked yet. -/
def State.storeNext (tmp next : Option Nat) : State K V :=
  match tmp with
  | none => s
  | some n => s.store (.node n) ⟨next,false⟩

/-- `new Node`, with `pnew` for its payload. -/
def State.newNode (key : K) (val : V) : State K V :=
  { s with
    word := update s.word (.node s.made) ⟨none,false⟩
    key := update s.key s.made key
    val := update s.val s.made val
    made := s.made + 1 }

/-- A successful `CAS_verify` ends the operation. -/
def State.commit (t : Nat) (pc : Pc K V) (res : Res V) : State K V :=
  { s with
    toPayloads := s.endOp (s.thread t).toPendingLists
    thread := update s.thread t ⟨⟨.empty,some res⟩,pc⟩ }

def State.abort (t : Nat) (pc : Pc K V) : State K V :=
  s.put t { s.thread t with toPendingLists := (s.thread t).abortOp, pc := pc }

def State.retirePayload (t n : Nat) (pc : Pc K V) : State K V :=
  s.put t { s.thread t with toPendingLists := (s.thread t).pretire n, pc := pc }

/-- `delete tmpNode`, with its payload. -/
def State.deleteTmp (t : Nat) (tmp : Option Nat) (pc : Pc K V) : State K V :=
  s.put t { s.thread t with
    toPendingLists := match tmp with
      | none => (s.thread t).toPendingLists
      | some n => (s.thread t).pdelete n
    pc := pc }

def ended (help : Option (Res V)) (here : At V) : At V :=
  match help with
  | none => here
  | some res => .returned res

def afterFound (t : Nat) (op : Op K V) (tmp : Option Nat) (prev : Loc) (curr : Nat)
    (next : Option Nat) : State K V :=
  let res := Res.val (some (s.val curr))
  match op with
  | .get _ => s.goto t (.run op tmp (.returned res))
  | .put _ _ | .replace _ _ =>
    (s.storeNext tmp next).retirePayload t curr (.run op tmp (.mark prev curr next tmp res))
  | .insert _ _ => s.deleteTmp t tmp (.run op tmp (.returned (.flag false)))
  | .remove _ => s.retirePayload t curr (.run op tmp (.mark prev curr next next res))

def afterMissed (t : Nat) (op : Op K V) (tmp : Option Nat) (prev : Loc)
    (curr : Option Nat) : State K V :=
  match op with
  | .get _ | .remove _ => s.goto t (.run op tmp (.returned (.val none)))
  | .put _ _ => (s.storeNext tmp curr).goto t (.run op tmp (.link prev curr (.val none)))
  | .insert _ _ => (s.storeNext tmp curr).goto t (.run op tmp (.link prev curr (.flag true)))
  | .replace _ _ => s.deleteTmp t tmp (.run op tmp (.returned (.val none)))

variable [LinearOrder K]

/-- The next access of a thread that runs `op`. `fails` says that `CAS_verify` fails for an
epoch change, or `CAS` for a descriptor. -/
def advance (T : Table K) (s : State K V) (t : Nat) (fails : Bool) (op : Op K V)
    (tmp : Option Nat) (here : At V) : State K V :=
  let goto := fun here => s.goto t (.run op tmp here)
  match here with
  | .find help =>
    let prev := Loc.bucket (T.idx op.key)
    goto (.scan help prev (s.word prev).ptr)
  | .scan help prev none => goto (ended help (.missed prev none))
  | .scan help prev (some c) => goto (.check help prev c (s.word (.node c)))
  | .check help prev c next =>
    if s.word prev ≠ ⟨some c,false⟩ then goto (.find help)
    else if next.mark then goto (.unlink help prev c next.ptr)
    else if op.key ≤ s.key c then
      if s.key c = op.key then goto (ended help (.found prev c next.ptr))
      else goto (ended help (.missed prev (some c)))
    else goto (.scan help (.node c) next.ptr)
  | .unlink help prev c next =>
    if !fails && s.word prev = ⟨some c,false⟩ then
      (s.store prev ⟨next,false⟩).goto t (.run op tmp (.scan help prev next))
    else goto (.find help)
  | .found prev c next => afterFound s t op tmp prev c next
  | .mark prev c next new res =>
    if !fails && s.word (.node c) = ⟨next,false⟩ then
      (s.commit t (.run op tmp (.swing prev c new res)) res).store (.node c) ⟨new,true⟩
    else s.abort t (.run op tmp (.find none))
  | .swing prev c new res =>
    if !fails && s.word prev = ⟨some c,false⟩ then
      (s.store prev ⟨new,false⟩).goto t (.run op tmp (.returned res))
    else goto (.find (some res))
  | .missed prev curr => afterMissed s t op tmp prev curr
  | .link prev curr res =>
    if !fails && s.word prev = ⟨curr,false⟩ then
      (s.commit t (.run op tmp (.returned res)) res).store prev ⟨tmp,false⟩
    else s.abort t (.run op tmp (.find none))
  | .returned _ => s.goto t .idle

inductive Act (K V : Type) where
  | call (t : Nat) (op : Op K V)
  | tick (t : Nat) (fails : Bool)

def call (t : Nat) (op : Op K V) : State K V :=
  match op.newVal with
  | none => s.put t { s.thread t with pc := .run op none (.find none), done := none }
  | some v =>
    (s.newNode op.key v).put t { s.thread t with
      toPendingLists := (s.thread t).pnew s.made
      pc := .run op (some s.made) (.find none)
      done := none }

def step (T : Table K) (s : State K V) : Act K V → Option (State K V)
  | .call t op =>
    match (s.thread t).pc with
    | .idle => some (call s t op)
    | .run _ _ _ => none
  | .tick t fails =>
    match (s.thread t).pc with
    | .idle => none
    | .run op tmp here => some (advance T s t fails op tmp here)

def Bucket (b : Nat) (l : List Nat) : Prop :=
  Chain (fun n => (s.word (.node n)).ptr) (s.word (.bucket b)).ptr l

def Live (n : Nat) : Prop :=
  (∃ b l, Bucket s b l ∧ n ∈ l) ∧ (s.word (.node n)).mark = false

def Holds (key : K) : Option V → Prop
  | some v => ∃ n, Live s n ∧ s.key n = key ∧ s.val n = v
  | none => ∀ n, Live s n → s.key n ≠ key

def succeeds : Act K V → Bool
  | .tick t fails =>
    match (s.thread t).pc with
    | .run _ _ (.mark _ c next _ _) => !fails && s.word (.node c) = ⟨next,false⟩
    | .run _ _ (.link prev curr _) => !fails && s.word prev = ⟨curr,false⟩
    | _ => false
  | .call _ _ => false

def Act.thread : Act K V → Nat
  | .call t _ | .tick t _ => t

def Act.calls (t : Nat) : Act K V → Prop
  | .call u _ => u = t
  | .tick _ _ => False

def Pc.op : Pc K V → Option (Op K V)
  | .idle => none
  | .run op _ _ => some op

/-- A successful `CAS_verify` performs the update of its operation, and nothing else changes
the map. -/
def Linearizes (m : Move (State K V) (Act K V)) : Prop :=
  if succeeds m.pre m.act then
    ∃ op old res new, (m.pre.thread m.act.thread).pc.op = some op ∧
      (m.pre.thread m.act.thread).done = none ∧
      (m.post.thread m.act.thread).done = some res ∧
      Holds m.pre op.key old ∧ op.apply old = (res,new) ∧ Holds m.post op.key new ∧
      ∀ key, key ≠ op.key → ∀ v, Holds m.pre key v → Holds m.post key v
  else ∀ key v, Holds m.pre key v → Holds m.post key v

def Had (ms : List (Move (State K V) (Act K V))) (t : Nat) (key : K) (v : Option V) : Prop :=
  Since ms (Act.calls t) fun s => Holds s key v

/-- What a call returns is the result of the update that its `CAS_verify` has performed;
without one, it is what an operation that leaves the map as it is returns for a value that
the key had during the call. -/
def Returns (ms : List (Move (State K V) (Act K V))) (t : Nat) (th : Thread K V) : Prop :=
  match th.pc with
  | .run op _ (.returned res) =>
    th.done = some res ∨ th.done = none ∧ ∃ v, Had ms t op.key v ∧ op.apply v = (res,v)
  | _ => True

/-- The lists are sorted along their unmarked nodes, a key has one of these at most, and they
carry the payloads that are registered and not retired. -/
structure Sorted : Prop where
  lists : ∀ b, ∃ l, Bucket s b l ∧
    ((l.filter fun n => !(s.word (.node n)).mark).map s.key).Pairwise (· < ·)
  unique : ∀ n m, Live s n → Live s m → s.key n = s.key m → n = m
  durable : ∀ n, n ∈ s.committed ∧ n ∉ s.retired ↔ Live s n

end Montage.LfHashTable
