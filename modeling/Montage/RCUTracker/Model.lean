import Montage.Library.Runs
import Mathlib.Algebra.Group.Nat.Defs

namespace Montage.RCUTracker

/-- `RCUInfo`. The time of the call of `retire` is kept as well. -/
structure Info where
  obj : Nat
  epoch : Nat
  called : Nat

def less : Option Nat → Option Nat → Bool
  | some a, some b => a < b
  | some _, none => true
  | none, _ => false

/-- The next access of a thread. `counts` says that `empty` was called by `retire`. -/
inductive Pc where
  | idle
  | startLoad
  | startStore (e : Nat)
  | endStore
  | retireLoad (obj called : Nat)
  | retireBump
  | scan (i : Nat) (minEpoch : Option Nat) (counts : Bool)
  | erase (k : Nat) (minEpoch : Option Nat) (counts : Bool)
  deriving DecidableEq

/-- What belongs to a thread: its reservation, where `none` is `UINT64_MAX`, its retired objects
and its counter; and when the `start_op` of the operation it is in was completed. -/
structure Thread where
  pc : Pc
  reservation : Option Nat
  retired : List Info
  retireCounter : Nat
  since : Option Nat

/-- The global epoch and the threads; the number of steps so far, the calls of `retire` and the
calls of a destructor, each with its thread. -/
structure State where
  epoch : Nat
  thread : Nat → Thread
  now : Nat
  calls : List (Nat × Nat)
  destructed : List (Nat × Nat)

def init : State where
  epoch := 0
  thread _ := ⟨.idle,none,[],0,none⟩
  now := 0
  calls := []
  destructed := []

/-- The arguments of the constructor, with `type_RCU`. -/
structure Config where
  taskNum : Nat
  epochFreq : Nat
  emptyFreq : Nat
  collect : Bool

inductive Op where
  | startOp
  | endOp
  | retire (obj : Option Nat)
  | empty

inductive Act where
  | call (t : Nat) (op : Op)
  | tick (t : Nat)

def Thread.finish (th : Thread) (counts : Bool) : Thread :=
  { th with
    pc := .idle
    retireCounter := if counts then (th.retireCounter + 1) % 2 ^ 64 else th.retireCounter }

def State.put (s : State) (t : Nat) (th : Thread) : State :=
  { s with thread := Function.update s.thread t th, now := s.now + 1 }

/-- A thread that is not in a call makes one. An operation is started outside of operations and
ended inside. -/
def State.call (s : State) (t : Nat) : Op → Option State
  | .startOp =>
    if (s.thread t).since = none then some (s.put t { s.thread t with pc := .startLoad }) else none
  | .endOp =>
    if (s.thread t).since = none then none else some (s.put t { s.thread t with pc := .endStore })
  | .retire none => some (s.put t (s.thread t))
  | .retire (some obj) =>
    some { s.put t { s.thread t with pc := .retireLoad obj s.now } with calls := (t,obj) :: s.calls }
  | .empty => some (s.put t { s.thread t with pc := .scan 0 none false })

def State.tick (cfg : Config) (s : State) (t : Nat) : Option State :=
  let th := s.thread t
  match th.pc with
  | .idle => none
  | .startLoad => some (s.put t { th with pc := .startStore s.epoch })
  | .startStore e => some (s.put t { th with pc := .idle, reservation := some e, since := some s.now })
  | .endStore => some (s.put t { th with pc := .idle, reservation := none, since := none })
  | .retireLoad obj called =>
    some (s.put t { th with pc := .retireBump, retired := th.retired ++ [⟨obj,s.epoch,called⟩] })
  | .retireBump =>
    let epoch := if th.retireCounter % (cfg.epochFreq * cfg.taskNum) = 0 then s.epoch + 1 else s.epoch
    let th' := if cfg.collect && th.retireCounter % cfg.emptyFreq = 0 then
        { th with pc := .scan 0 none true }
      else th.finish true
    some { s.put t th' with epoch := epoch }
  | .scan i minEpoch counts =>
    if i < cfg.taskNum then
      let res := (s.thread i).reservation
      some (s.put t { th with pc := .scan (i + 1) (if less res minEpoch then res else minEpoch) counts })
    else some (s.put t { th with pc := .erase 0 minEpoch counts })
  | .erase k minEpoch counts =>
    match th.retired[k]? with
    | none => some (s.put t (th.finish counts))
    | some x =>
      if less (some x.epoch) minEpoch then
        some { s.put t { th with retired := th.retired.eraseIdx k } with
          destructed := (t,x.obj) :: s.destructed }
      else some (s.put t { th with pc := .erase (k + 1) minEpoch counts })

def step (cfg : Config) (s : State) : Act → Option State
  | .call t op => if t < cfg.taskNum ∧ (s.thread t).pc = .idle then s.call t op else none
  | .tick t => if t < cfg.taskNum then s.tick cfg t else none

end Montage.RCUTracker
