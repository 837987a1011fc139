import Montage.Basic
import Montage.Library.Runs

namespace Montage.Dcss
open Library Function

/-- `lin_var`: a value with a count, the low two bits of which are a state. -/
structure LinVar (α : Type) where
  val : α
  cnt : Nat
  deriving DecidableEq

/-- `is_desc` of a word, `in_progress` of a descriptor. -/
def LinVar.inProgress (d : LinVar α) : Bool := d.cnt % 4 = 1

def LinVar.committed (d : LinVar α) : Bool := d.cnt % 4 = 2

/-- What `abort`, `commit` and `cleanup` expect to find: state `01` under the count of `d`. -/
def LinVar.undecided (d : LinVar α) : LinVar α := ⟨d.val,d.cnt / 4 * 4 + 1⟩

/-- `match`: the same up to the state. -/
def LinVar.Match (old new : LinVar α) : Prop := old.cnt / 4 = new.cnt / 4 ∧ old.val = new.val

instance [DecidableEq α] (a b : LinVar α) : Decidable (a.Match b) :=
  inferInstanceAs (Decidable (_ ∧ _))

/-- `sc_desc_t`. The descriptor of thread `t` is number `t`, and a word that holds it has
`t` as its value. `var` is the word the descriptor is set up for, none for a null one. -/
structure Desc where
  oldVal : Nat
  newVal : Nat
  epoch : Nat
  sn : Nat
  var : LinVar (Option Nat)

def Desc.abort (D : Desc) (d : LinVar (Option Nat)) : Desc :=
  if D.var = d.undecided then { D with var := ⟨d.val,d.undecided.cnt + 2⟩ } else D

def Desc.commit (D : Desc) (d : LinVar (Option Nat)) : Desc :=
  if D.var = d.undecided then { D with var := ⟨d.val,d.undecided.cnt + 1⟩ } else D

/-- A call `CAS_verify(expected, desired)` on `word`. `auto` is `not_in_operation`: the
call began an operation of its own. -/
structure Call where
  word : Nat
  expected : Nat
  desired : Nat
  auto : Bool
  deriving DecidableEq

/-- Who waits for a `try_complete`: `load` tries again, a `CAS_verify` that has met a
descriptor fails, and one that has installed its own looks at its status. -/
inductive After where
  | load
  | refuse (call : Call)
  | check (call : Call)
  deriving DecidableEq

structure Help where
  desc : Nat
  word : Nat
  after : After
  deriving DecidableEq

inductive Stage where
  | load
  | epoch (d : LinVar (Option Nat))
  | check (d : LinVar (Option Nat)) (e : Nat)
  | decide (d : LinVar (Option Nat)) (verdict : Bool)
  | cleanLoad (d : LinVar (Option Nat))
  | cleanRead (d : LinVar (Option Nat))
  | cleanCas (d : LinVar (Option Nat)) (val : Nat)
  deriving DecidableEq

/-- The next access of a thread. `begin_op` has the `CAS_verify` that called it, if one
did, and the epoch it has read. -/
inductive Pc where
  | idle
  | incrementSn (caller : Option Call) (e : Nat)
  | resetVar (caller : Option Call) (e : Nat)
  | loadEpoch (caller : Option Call)
  | setUpEpoch (caller : Option Call) (e : Nat)
  | load (word : Nat)
  | casLoad (call : Call)
  | setVar (call : Call) (cnt : Nat)
  | setOld (call : Call) (cnt : Nat)
  | setNew (call : Call) (cnt : Nat)
  | install (call : Call) (cnt : Nat)
  | readStatus (call : Call)
  | giveBack (call : Call) (result : Bool)
  | help (help : Help) (stage : Stage)
  | abortLoad (desc e : Nat)
  | abortEpoch (desc e : Nat) (d : LinVar (Option Nat))
  | abortCas (desc : Nat) (d : LinVar (Option Nat))
  deriving DecidableEq

/-- `epochs` are the threads' own epochs, `NULL_EPOCH` outside operations. `calls` counts
the calls of `CAS_verify`, `result` is what the last one since the latest `reinit` has
returned, and `loaded` is what the last `load` has returned. -/
structure State where
  globalEpoch : Nat
  words : Nat → LinVar Nat
  descs : Nat → Desc
  pc : Nat → Pc
  epochs : Nat → Nat
  calls : Nat → Nat
  result : Nat → Option Bool
  loaded : Nat → Option Nat

def init (g : Nat) (val : Nat → Nat) : State where
  globalEpoch := g
  words w := ⟨val w,0⟩
  descs _ := ⟨0,0,nullEpoch,0,⟨none,0⟩⟩
  pc _ := .idle
  epochs _ := nullEpoch
  calls _ := 0
  result _ := none
  loaded _ := none

def State.goto (s : State) (t : Nat) (pc : Pc) : State :=
  { s with pc := update s.pc t pc }

def State.setDesc (s : State) (t : Nat) (D : Desc) : State :=
  { s with descs := update s.descs t D }

def State.setWord (s : State) (w : Nat) (v : LinVar Nat) : State :=
  { s with words := update s.words w v }

def After.resume (word : Nat) : After → Pc
  | .load => .load word
  | .refuse call => .giveBack call false
  | .check call => .readStatus call

def Help.done (h : Help) : Pc := h.after.resume h.word

/-- The order in which `begin_transaction` reads the epoch and resets the descriptor:
`nbEpochSys` reads first, `EpochSys` resets first. -/
inductive System where
  | blocking
  | nonblocking

def System.begin (caller : Option Call) : System → Pc
  | .blocking => .incrementSn caller nullEpoch
  | .nonblocking => .loadEpoch caller

def System.afterLoad (caller : Option Call) (e : Nat) : System → Pc
  | .blocking => .setUpEpoch caller e
  | .nonblocking => .incrementSn caller e

def System.afterReset (caller : Option Call) (e : Nat) : System → Pc
  | .blocking => .loadEpoch caller
  | .nonblocking => .setUpEpoch caller e

def begun : Option Call → Pc
  | none => .idle
  | some call => .casLoad call

/-- What an idle thread may be asked to do. `finish` is `end_op` or `abort_op`, neither of
which touches the descriptor, and `tryAbort` is what an advancer does. -/
inductive Request where
  | beginOp
  | finish
  | load (word : Nat)
  | casVerify (word expected desired : Nat)
  | tryAbort (desc e : Nat)

def start (sys : System) (s : State) (t : Nat) : Request → Option State
  | .beginOp => if s.epochs t = nullEpoch then some (s.goto t (sys.begin none)) else none
  | .finish =>
    if s.epochs t = nullEpoch then none
    else some { s with epochs := update s.epochs t nullEpoch }
  | .load w => some (s.goto t (.load w))
  | .casVerify w expected desired =>
    let s := { s with calls := update s.calls t (s.calls t + 1) }
    if s.epochs t = nullEpoch then
      let call := ⟨w,expected,desired,true⟩
      some (s.goto t (sys.begin (some call)))
    else some (s.goto t (.casLoad ⟨w,expected,desired,false⟩))
  | .tryAbort D e => some (s.goto t (.abortLoad D e))

/-- `CAS_verify` returns, after `end_op` or `abort_op` if it began the operation. -/
def giveBack (s : State) (t : Nat) (call : Call) (b : Bool) : State :=
  { s.goto t .idle with
    epochs := if call.auto then update s.epochs t nullEpoch else s.epochs
    result := update s.result t (some b) }

/-- The CAS of `cleanup`, with the value that was read from the descriptor. -/
def cleanupCas (s : State) (D : Nat) (d : LinVar (Option Nat)) (val : Nat) : State :=
  match d.val with
  | none => s
  | some w =>
    if s.words w = ⟨D,d.undecided.cnt⟩ then
      s.setWord w ⟨val,if d.committed then d.cnt + 2 else d.cnt + 1⟩
    else s

def tryComplete (s : State) (t : Nat) (h : Help) : Stage → State
  | .load =>
    let d := (s.descs h.desc).var
    if d.val ≠ some h.word then s.goto t h.done
    else if d.inProgress then s.goto t (.help h (.epoch d))
    else s.goto t (.help h (.cleanLoad d))
  | .epoch d => s.goto t (.help h (.check d (s.descs h.desc).epoch))
  | .check d e => s.goto t (.help h (.decide d (e = s.globalEpoch)))
  | .decide d verdict =>
    let D := s.descs h.desc
    (s.setDesc h.desc (if verdict then D.commit d else D.abort d)).goto t
      (.help h (.cleanLoad d))
  -- cleanup
  | .cleanLoad d =>
    let new := (s.descs h.desc).var
    if d.Match new then s.goto t (.help h (.cleanRead new)) else s.goto t h.done
  | .cleanRead d =>
    let D := s.descs h.desc
    s.goto t (.help h (.cleanCas d (if d.committed then D.newVal else D.oldVal)))
  | .cleanCas d val => (cleanupCas s h.desc d val).goto t h.done

def access (sys : System) (s : State) (t : Nat) : Option State :=
  match s.pc t with
  | .idle => none
  -- begin_op
  | .incrementSn k e =>
    some ((s.setDesc t { s.descs t with sn := (s.descs t).sn + 1 }).goto t (.resetVar k e))
  | .resetVar k e =>
    some { (s.setDesc t { s.descs t with var := ⟨none,0⟩ }).goto t (sys.afterReset k e) with
      result := update s.result t none }
  | .loadEpoch k => some (s.goto t (sys.afterLoad k s.globalEpoch))
  | .setUpEpoch k e =>
    some { (s.setDesc t { s.descs t with epoch := e }).goto t (begun k) with
      epochs := update s.epochs t e }
  | .load w =>
    let r := s.words w
    if r.inProgress then some (s.goto t (.help ⟨r.val,w,.load⟩ .load))
    else some { s.goto t .idle with loaded := update s.loaded t (some r.val) }
  -- CAS_verify
  | .casLoad call =>
    let r := s.words call.word
    if r.inProgress then some (s.goto t (.help ⟨r.val,call.word,.refuse call⟩ .load))
    else if r.val ≠ call.expected then some (s.goto t (.giveBack call false))
    else some (s.goto t (.setVar call r.cnt))
  | .setVar call cnt =>
    some ((s.setDesc t { s.descs t with var := ⟨some call.word,cnt + 1⟩ }).goto t
      (.setOld call cnt))
  | .setOld call cnt =>
    some ((s.setDesc t { s.descs t with oldVal := call.expected }).goto t (.setNew call cnt))
  | .setNew call cnt =>
    some ((s.setDesc t { s.descs t with newVal := call.desired }).goto t (.install call cnt))
  | .install call cnt =>
    if s.words call.word = ⟨call.expected,cnt⟩ then
      some ((s.setWord call.word ⟨t,cnt + 1⟩).goto t (.help ⟨t,call.word,.check call⟩ .load))
    else some (s.goto t (.giveBack call false))
  | .readStatus call => some (s.goto t (.giveBack call (s.descs t).var.committed))
  | .giveBack call b => some (giveBack s t call b)
  | .help h stage => some (tryComplete s t h stage)
  -- try_abort
  | .abortLoad D e => some (s.goto t (.abortEpoch D e (s.descs D).var))
  | .abortEpoch D e d =>
    if (s.descs D).epoch = e ∧ d.inProgress then some (s.goto t (.abortCas D d))
    else some (s.goto t .idle)
  | .abortCas D d => some ((s.setDesc D ((s.descs D).abort d)).goto t .idle)

/-- `retry` is the retry of `begin_transaction` in the blocking system when the epoch has
moved before the operation is registered. -/
inductive Act where
  | start (t : Nat) (r : Request)
  | access (t : Nat)
  | retry (t : Nat)
  | advance

def step (sys : System) (s : State) : Act → Option State
  | .start t r => if s.pc t = .idle then start sys s t r else none
  | .access t => access sys s t
  | .retry t =>
    match sys, s.pc t with
    | .blocking, .setUpEpoch k _ => some (s.goto t (.loadEpoch k))
    | _, _ => none
  | .advance => some { s with globalEpoch := s.globalEpoch + 1 }

def After.call : After → Option Call
  | .load => none
  | .refuse call | .check call => some call

def After.own : After → Option Call
  | .check call => some call
  | _ => none

def Pc.call : Pc → Option Call
  | .incrementSn k _ | .resetVar k _ | .loadEpoch k | .setUpEpoch k _ => k
  | .casLoad call | .setVar call _ | .setOld call _ | .setNew call _ | .install call _
  | .readStatus call | .giveBack call _ => some call
  | .help h _ => h.after.call
  | _ => none

/-- The logical value of a word: while a descriptor is installed, its old value until it
is committed. -/
def logical (s : State) (w : Nat) : Nat :=
  let r := s.words w
  if r.inProgress then
    let D := s.descs r.val
    if D.var.committed then D.newVal else D.oldVal
  else r.val

end Montage.Dcss
