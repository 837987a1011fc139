import Montage.Recoverable.Memory

namespace Montage.DaliUnorderedMap
open Recoverable

variable {K V : Type}

structure Node (K V : Type) where
  key : K
  val : Option V
  next : Option Addr

/-- `stat` packs `a`, `f`, `c` and `ss` into 2, 2, 2 and 58 bits. -/
structure Bucket where
  stat : Nat
  ptrs : Nat → Option Addr
  gcTimer : Nat

def a (stat : Nat) : Nat := (stat &&& 0xc000000000000000) >>> 62

def f (stat : Nat) : Nat := (stat &&& 0x3000000000000000) >>> 60

def c (stat : Nat) : Nat := (stat &&& 0x0c00000000000000) >>> 58

def ss (stat : Nat) : Nat := stat &&& 0x03ffffffffffffff

def newStat (a f c ss : Nat) : Nat :=
  ((a &&& 0x3) <<< 62) ||| ((f &&& 0x3) <<< 60) ||| ((c &&& 0x3) <<< 58) |||
    (ss &&& 0x03ffffffffffffff)

/-- `FList::find`. The list has the latest epoch first. -/
def find (v : Int) : List Int → Bool
  | [] => false
  | x :: l => if x < v then false else if x = v then true else find v l

/-- The memory of the nodes, the buckets, the list of failed epochs and, for each thread, its retired
nodes by epoch modulo 4 and its timer. -/
structure State (K V : Type) where
  node : Addr → Node K V
  live : Finset Addr
  buckets : Nat → Bucket
  flist : List Int
  retired : Nat → Nat → List Addr
  reclaimTimers : Nat → Nat

/-- `ptrs[f(ret)]=nullptr` before `ret` is returned. -/
def Bucket.invalidate (b : Bucket) (ret : Nat) : Nat × Bucket :=
  (ret,{ b with ptrs := Function.update b.ptrs (f ret) none })

def lookup (e : Nat) (curFail preFail : Bool) (b : Bucket) : Nat × Bucket :=
  let stat := b.stat
  if ss stat = e then (stat,b)
  else if ss stat + 1 = e then
    if !curFail then
      if !preFail then (newStat (c stat) (a stat) (f stat) e,b)
      else (newStat (f stat) (a stat) (c stat) e,b)
    else b.invalidate (newStat (a stat) (f stat) (c stat) e)
  else if !curFail then b.invalidate (newStat (c stat) (f stat) (a stat) e)
  else if !preFail then b.invalidate (newStat (a stat) (c stat) (f stat) e)
  else b.invalidate (newStat (a stat) (f stat) (c stat) e)

namespace State

def load (s : State K V) (x : Addr) : Option (Node K V) :=
  if x ∈ s.live then some (s.node x) else none

def delete (x : Addr) (s : State K V) : Option (State K V) :=
  if x ∈ s.live then some { s with live := s.live.erase x } else none

def reclaim (tid : Nat) (e : Int) (s : State K V) : Option (State K V) :=
  if e < 0 then some s
  else
    let i := (e % 4).toNat
    ((s.retired tid i).foldrM delete s).map fun s =>
      { s with retired := Function.update s.retired tid (Function.update (s.retired tid) i []) }

/-- `prev->next = next`, and `retired[tid].insert(curr, e)`. -/
def unlink (s : State K V) (prev curr : Addr) (next : Option Addr) (tid e : Nat) : State K V :=
  { s with
    node := Function.update s.node prev { s.node prev with next := next }
    retired := Function.update s.retired tid
      (Function.update (s.retired tid) (e % 4) (s.retired tid (e % 4) ++ [curr])) }

/-- The loop of `do_gc`. It goes on for ever on a list with a cycle, so the fuel is the number of
nodes. -/
def sweep [DecidableEq K] (s : State K V) (tid e : Nat) :
    Nat → List K → Addr → Option Addr → Option (State K V)
  | _, _, _, none => some s
  | 0, _, _, some _ => none
  | fuel + 1, seen, prev, some curr =>
    (s.load curr).bind fun n =>
      if n.key ∈ seen then some (s.unlink prev curr n.next tid e)
      else sweep s tid e fuel (n.key :: seen) curr n.next

def doGc [DecidableEq K] (s : State K V) (e idx : Nat) (head : Addr) (tid : Nat) :
    Option (State K V) := do
  let s := { s with buckets := Function.update s.buckets idx { s.buckets idx with gcTimer := 0 } }
  let timer := (s.reclaimTimers tid + 1) % 2 ^ 64
  let s ← if 2 ^ 8 ≤ timer then
      (reclaim tid (e - 2) { s with reclaimTimers := Function.update s.reclaimTimers tid 0 }).bind
        (reclaim tid (e - 3))
    else some { s with reclaimTimers := Function.update s.reclaimTimers tid timer }
  let n ← s.load head
  s.sweep tid e s.live.card [n.key] head n.next

def validHead (b : Bucket) (curFail preFail : Bool) : Option Addr :=
  if !curFail then b.ptrs (a b.stat) else if !preFail then b.ptrs (f b.stat) else b.ptrs (c b.stat)

/-- `update` in the epoch `e`, which is `now` when it comes to `do_gc`. -/
def update [DecidableEq K] (al : Allocator) (s : State K V) (idx : Nat) (key : K) (val : Option V)
    (tid e now : Nat) : Option (State K V × Option Addr) :=
  let b := s.buckets idx
  let curFail := find (ss b.stat) s.flist
  let preFail := find (ss b.stat - 1) s.flist || (b.ptrs (f b.stat)).isNone
  let head := validHead b curFail preFail
  let n := al.fresh s.live
  let r := lookup e curFail preFail b
  let b : Bucket := ⟨r.1,Function.update r.2.ptrs (a r.1) (some n),(r.2.gcTimer + 1) % 2 ^ 64⟩
  let s := { s with
    node := Function.update s.node n ⟨key,val,head⟩
    live := insert n s.live
    buckets := Function.update s.buckets idx b }
  match head with
  | none => some (s,head)
  | some h =>
    if 2 ^ 6 ≤ b.gcTimer then (s.doGc now idx h tid).map fun s => (s,head) else some (s,head)

def findValue [DecidableEq K] (s : State K V) (key : K) : Nat → Option Addr → Option (Option V)
  | _, none => some none
  | 0, some _ => none
  | fuel + 1, some x =>
    (s.load x).bind fun n => if n.key = key then some n.val else findValue s key fuel n.next

end State

/-- The head that recovery uses when the epoch `ss` has failed. -/
def Bucket.olderHead (b : Bucket) : Option Addr := (b.ptrs (f b.stat)).or (b.ptrs (c b.stat))

def init [Inhabited K] : State K V where
  node _ := ⟨default,none,none⟩
  live := ∅
  buckets _ := ⟨0,fun _ => none,0⟩
  flist := []
  retired _ _ := []
  reclaimTimers _ := 0

/-- A call of `update`. -/
structure Call (K V : Type) where
  idx : Nat
  key : K
  val : Option V
  tid : Nat
  e : Nat
  now : Nat

def State.run [DecidableEq K] (al : Allocator) (s : State K V) :
    List (Call K V) → Option (State K V)
  | [] => some s
  | u :: us => (s.update al u.idx u.key u.val u.tid u.e u.now).bind fun r => r.1.run al us

def valueAfter [DecidableEq K] (us : List (Call K V)) (i : Nat) (key : K) : Option V :=
  us.foldl (fun v u => if u.idx = i ∧ u.key = key then u.val else v) none

def lastEpoch (us : List (Call K V)) (i : Nat) : Nat :=
  us.foldl (fun e u => if u.idx = i then u.e else e) 0

end Montage.DaliUnorderedMap
