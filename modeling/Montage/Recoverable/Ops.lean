import Montage.ToBeFreed.Thread
import Mathlib.Data.Finset.Basic

namespace Montage.Recoverable
open Library EpochSys ToBeFreed

/-- What `Recoverable` and the epoch system keep for one thread: the epoch of its operation,
the pending allocations, the pending retirements with their anti-nodes, the serial number
of its descriptor and the next id it will hand out. -/
structure Thread where
  epoch : Option Nat
  pendingAllocs : List Addr
  pendingRetires : List (Addr × Option Addr)
  tid : Nat
  sn : Nat
  nextId : Nat

def SameOp (th th' : Thread) : Prop :=
  th'.epoch = th.epoch ∧ th'.pendingAllocs = th.pendingAllocs ∧
    th'.pendingRetires = th.pendingRetires

abbrev Call := Except Fault (List Instr × Thread)

variable (k : Kind) (h : Heap) (th : Thread)

def registerAlloc (b : Addr) (c : Nat) : Call := do
  let is ← match k with
    | .blocking => EpochSys.registerAllocPblk h b c th.nextId
    | .nonblocking => NbEpochSys.registerAllocPblk h b c th.nextId th.tid th.sn
  return (is,if (h b).id = 0 then { th with nextId := th.nextId + 1 } else th)

def pnew (a : Addr) : Call :=
  match th.epoch with
  | none => .ok ([.construct a .init 0],
      { th with pendingAllocs := th.pendingAllocs ++ [a] })
  | some c => do
    let (is,th) ← registerAlloc k ((Instr.construct a .init 0).write h) th a c
    return (.construct a .init 0 :: is,th)

/-- `prepare_retire_pblk`: only the nonblocking system makes the anti-node, at `a`, at this
point. -/
def prepareRetire (b a : Addr) (c : Nat) : Except Fault (List Instr × (Addr × Option Addr)) :=
  match k with
  | .blocking => .ok ([],(b,none))
  | .nonblocking => do
    let is ← NbEpochSys.prepareRetirePblk h a b c th.tid th.sn
    return (is,(b,some a))

def pretire (b a : Addr) : Call :=
  match th.epoch with
  | none => .ok ([],{ th with pendingRetires := th.pendingRetires ++ [(b,none)] })
  | some c => do
    let (is,r) ← prepareRetire k h th b a c
    return (is,{ th with pendingRetires := th.pendingRetires ++ [r] })

/-- The first loop of `begin_op`. The allocator hands out `antis`. -/
def prepareRetires (k : Kind) (h : Heap) (th : Thread) (c : Nat) :
    List (Addr × Option Addr) → List Addr →
    Except Fault (List Instr × List (Addr × Option Addr))
  | [], _ => .ok ([],[])
  | _ :: _, [] => .error .nullPointer
  | (b,anti) :: rs, a :: antis => do
    if k = .nonblocking ∧ anti ≠ none then throw .assertion
    let (is,r) ← prepareRetire k h th b a c
    let (is',rs) ← prepareRetires k (writes h is) th c rs antis
    return (is ++ is',r :: rs)

/-- A loop over blocks, each round of which sees the stores of the rounds before. -/
def forEach (f : Heap → Thread → Addr → Call) : Heap → Thread → List Addr → Call
  | _, th, [] => .ok ([],th)
  | h, th, b :: bs => do
    let (is,th) ← f h th b
    let (is',th) ← forEach f (writes h is) th bs
    return (is ++ is',th)

/-- The second loop of `begin_op`. -/
def registerAllocs (c : Nat) : Heap → Thread → List Addr → Call :=
  forEach fun h th b =>
    if (h b).epoch ≠ nullEpoch then .error .assertion else registerAlloc k h th b c

def beginOp (c : Nat) (antis : List Addr) : Call := do
  if th.epoch ≠ none ∨ c = nullEpoch then throw .assertion
  let th := { th with epoch := some c, sn := th.sn + 1 }
  let (is,rs) ← prepareRetires k h th c th.pendingRetires antis
  let th := { th with pendingRetires := rs }
  let (is',th) ← registerAllocs k c (writes h is) th th.pendingAllocs
  return (is ++ is',th)

/-- The loop of `end_op`. The blocking system makes the anti-nodes here. -/
def retires (k : Kind) (c : Nat) : Heap → List (Addr × Option Addr) → List Addr →
    Except Fault (List Instr)
  | _, [], _ => .ok []
  | _, _ :: _, [] => .error .nullPointer
  | h, (b,anti) :: rs, a :: antis => do
    let is ← match k with
      | .blocking => EpochSys.retirePblk h a b c
      | .nonblocking => NbEpochSys.retirePblk h b c anti
    let is' ← retires k c (writes h is) rs antis
    return is ++ is'

def endOp (antis : List Addr) : Call :=
  match th.epoch with
  | none => .error .assertion
  | some c => do
    let is ← retires k c h th.pendingRetires antis
    return (is,{ th with epoch := none, pendingRetires := [], pendingAllocs := [] })

def endReadonlyOp : Call :=
  if th.epoch = none ∨ th.pendingAllocs ≠ [] ∨ th.pendingRetires ≠ [] then .error .assertion
  else .ok ([],{ th with epoch := none })

def withdrawRetire (anti : Option Addr) (c : Nat) : List Instr :=
  match k with
  | .blocking => []
  | .nonblocking => NbEpochSys.withdrawRetirePblk anti c

/-- The second loop of `abort_op`. -/
def resetAllocs (c : Nat) : Heap → Thread → List Addr → Call :=
  forEach fun h th b => do
    let is ← resetAllocPblk h b c
    return (is,th)

/-- `abort_op` keeps the pending allocations for another attempt. -/
def abortOp : Call :=
  match th.epoch with
  | none => .error .assertion
  | some c => do
    let is := th.pendingRetires.flatMap fun r => withdrawRetire k r.2 c
    let (is',th) ← resetAllocs c (writes h is) { th with pendingRetires := [] } th.pendingAllocs
    return (is ++ is',{ th with epoch := none })

/-- `pdelete`, with the address `a` for the anti-node if one is made. -/
def pdelete (b a : Addr) : Call :=
  match th.epoch with
  | some c => do
    let is ← freePblk h a b c
    return (is,th)
  | none =>
    if (h b).epoch = nullEpoch then
      if b ∈ th.pendingAllocs then
        .ok (deletePblk b nullEpoch,{ th with pendingAllocs :=
          (th.pendingAllocs.reverse.erase b).reverse })
      else .error .assertion
    else .ok (deletePblk b nullEpoch,th)

theorem SameOp.refl (th : Thread) : SameOp th th := ⟨rfl,rfl,rfl⟩

theorem SameOp.trans {th1 th2 th3 : Thread} (h : SameOp th1 th2) (h' : SameOp th2 th3) :
    SameOp th1 th3 := ⟨h'.1.trans h.1,h'.2.1.trans h.2.1,h'.2.2.trans h.2.2⟩

variable {k : Kind} {h : Heap} {th th' : Thread} {a b : Addr} {c : Nat} {is : List Instr}
  {bs antis : List Addr} {r : Addr × Option Addr} {rs rs' : List (Addr × Option Addr)}

/-! ## What calls have done when they return -/

theorem register_alloc_ok (hr : registerAlloc k h th b c = .ok (is,th')) :
    SameOp th th' ∧ ∃ js, EpochSys.registerAllocPblk h b c th.nextId = .ok js ∧
      (k = .blocking ∧ is = js ∨ k = .nonblocking ∧ is = .setTidSn b th.tid th.sn :: js) := by
  have hsame : SameOp th (if (h b).id = 0 then { th with nextId := th.nextId + 1 } else th) := by
    split <;> exact ⟨rfl,rfl,rfl⟩
  cases k with
  | blocking =>
    obtain ⟨js,hjs,hr⟩ := of_bind_ok hr
    cases hr
    exact ⟨hsame,_,hjs,.inl ⟨rfl,rfl⟩⟩
  | nonblocking =>
    obtain ⟨is',his',hr⟩ := of_bind_ok hr
    obtain ⟨js,hjs,his'⟩ := of_bind_ok his'
    cases his'
    cases hr
    exact ⟨hsame,js,hjs,.inr ⟨rfl,rfl⟩⟩

theorem prepare_retire_ok (hr : prepareRetire k h th b a c = .ok (is,r)) :
    k = .blocking ∧ is = [] ∧ r = (b,none) ∨ k = .nonblocking ∧ r = (b,some a) ∧
      is = [copyPblk h a b,.setType a .delete,.setEpoch a c,.setTidSn a th.tid th.sn,
        .registerPersist a c] := by
  cases k with
  | blocking => cases hr; exact .inl ⟨rfl,rfl,rfl⟩
  | nonblocking =>
    obtain ⟨js,hjs,hr⟩ := of_bind_ok hr
    cases hr
    exact .inr ⟨rfl,rfl,(NbEpochSys.prepare_retire_pblk_ok hjs).2⟩

theorem prepare_retires_cons (hr : prepareRetires k h th c (r :: rs) antis = .ok (is,rs')) :
    ∃ a antis' js r' js' rs'', prepareRetire k h th r.1 a c = .ok (js,r') ∧
      prepareRetires k (writes h js) th c rs antis' = .ok (js',rs'') ∧ is = js ++ js' ∧
      rs' = r' :: rs'' := by
  cases antis with
  | nil => cases hr
  | cons a antis =>
    obtain ⟨-,hr⟩ := of_check_ok hr
    obtain ⟨⟨js,r'⟩,hfirst,hr⟩ := of_bind_ok hr
    obtain ⟨⟨js',rs''⟩,hrest,hr⟩ := of_bind_ok hr
    cases hr
    exact ⟨a,antis,js,r',js',rs'',hfirst,hrest,rfl,rfl⟩

theorem for_each_cons {f : Heap → Thread → Addr → Call}
    (hr : forEach f h th (b :: bs) = .ok (is,th')) :
    ∃ js th1 js', f h th b = .ok (js,th1) ∧ forEach f (writes h js) th1 bs = .ok (js',th') ∧
      is = js ++ js' := by
  obtain ⟨⟨js,th1⟩,hfirst,hr⟩ := of_bind_ok hr
  obtain ⟨⟨js',th2⟩,hrest,hr⟩ := of_bind_ok hr
  cases hr
  exact ⟨js,th1,js',hfirst,hrest,rfl⟩

theorem begin_op_ok (hr : beginOp k h th c antis = .ok (is,th')) :
    c ≠ nullEpoch ∧ ∃ th1 js rs js', th1.epoch = some c ∧
      prepareRetires k h th1 c th.pendingRetires antis = .ok (js,rs) ∧
      registerAllocs k c (writes h js) { th with
        epoch := some c
        sn := th.sn + 1
        pendingRetires := rs } th.pendingAllocs = .ok (js',th') ∧ is = js ++ js' := by
  obtain ⟨hassert,hr⟩ := of_check_ok hr
  obtain ⟨⟨js,rs⟩,hprep,hr⟩ := of_bind_ok hr
  obtain ⟨⟨js',th2⟩,hreg,hr⟩ := of_bind_ok hr
  cases hr
  exact ⟨fun hnull => hassert (.inr hnull),_,js,rs,js',rfl,hprep,hreg,rfl⟩

theorem abort_op_ok (hc : th.epoch = some c) (hr : abortOp k h th = .ok (is,th')) :
    ∃ js th1, is = (th.pendingRetires.flatMap fun r => withdrawRetire k r.2 c) ++ js ∧
      resetAllocs c (writes h (th.pendingRetires.flatMap fun r => withdrawRetire k r.2 c))
        { th with epoch := some c, pendingRetires := [] } th.pendingAllocs = .ok (js,th1) ∧
      th' = { th1 with epoch := none } := by
  simp only [abortOp,hc] at hr
  obtain ⟨⟨js,th1⟩,hreset,hr⟩ := of_bind_ok hr
  cases hr
  exact ⟨js,th1,rfl,hreset,rfl⟩

section Accesses

variable {P : List Instr → Prop} (hnil : P []) (happend : ∀ {is js}, P is → P js → P (is ++ js))
include hnil happend

theorem for_each_all {f : Heap → Thread → Addr → Call}
    (hf : ∀ h th b is th', f h th b = .ok (is,th') → P is ∧ SameOp th th')
    (hr : forEach f h th bs = .ok (is,th')) : P is ∧ SameOp th th' := by
  induction bs generalizing h th is with
  | nil =>
    cases hr
    exact ⟨hnil,.refl _⟩
  | cons _ _ ih =>
    obtain ⟨js,th1,js',hfirst,hrest,rfl⟩ := for_each_cons hr
    obtain ⟨hP,hsame⟩ := hf _ _ _ _ _ hfirst
    obtain ⟨hP',hsame'⟩ := ih hrest
    exact ⟨happend hP hP',hsame.trans hsame'⟩

theorem prepare_retires_all
    (hprep : ∀ h b a is r, prepareRetire k h th b a c = .ok (is,r) → P is)
    (hr : prepareRetires k h th c rs antis = .ok (is,rs')) : P is := by
  induction rs generalizing h antis is rs' with
  | nil => cases hr; exact hnil
  | cons _ _ ih =>
    obtain ⟨a,antis',js,r',js',rs'',hfirst,hrest,rfl,-⟩ := prepare_retires_cons hr
    exact happend (hprep _ _ _ _ _ hfirst) (ih hrest)

theorem retires_all
    (hb : k = .blocking → ∀ h a b is, EpochSys.retirePblk h a b c = .ok is → P is)
    (hn : k = .nonblocking → ∀ h b anti is, NbEpochSys.retirePblk h b c anti = .ok is → P is)
    (hr : retires k c h rs antis = .ok is) : P is := by
  induction rs generalizing h antis is with
  | nil => cases hr; exact hnil
  | cons _ _ ih =>
    cases antis with
    | nil => cases hr
    | cons =>
      cases k with
      | blocking =>
        obtain ⟨js,hfirst,hr⟩ := of_bind_ok hr
        obtain ⟨js',hrest,hr⟩ := of_bind_ok hr
        cases hr
        exact happend (hb rfl _ _ _ _ hfirst) (ih hrest)
      | nonblocking =>
        obtain ⟨js,hfirst,hr⟩ := of_bind_ok hr
        obtain ⟨js',hrest,hr⟩ := of_bind_ok hr
        cases hr
        exact happend (hn rfl _ _ _ _ hfirst) (ih hrest)

theorem begin_op_all
    (hprep : ∀ h th b a is r, prepareRetire k h th b a c = .ok (is,r) → P is)
    (hreg : ∀ h th b is th', registerAlloc k h th b c = .ok (is,th') → P is)
    (hr : beginOp k h th c antis = .ok (is,th')) : P is ∧ th'.epoch = some c := by
  obtain ⟨-,th1,js,rs,js',hepoch,hjs,hjs',rfl⟩ := begin_op_ok hr
  obtain ⟨hP,hsame⟩ := for_each_all hnil happend (fun h th b is th' hb => by
    obtain ⟨-,hb⟩ := of_check_ok hb
    exact ⟨hreg _ _ _ _ _ hb,(register_alloc_ok hb).1⟩) hjs'
  exact ⟨happend (prepare_retires_all hnil happend (hprep · th1) hjs) hP,hsame.1⟩

theorem abort_op_all (hwithdraw : ∀ anti, P (withdrawRetire k anti c))
    (hreset : ∀ h b is, resetAllocPblk h b c = .ok is → P is) (hc : th.epoch = some c)
    (hr : abortOp k h th = .ok (is,th')) : P is ∧ th'.epoch = none := by
  obtain ⟨js,th1,rfl,hjs,rfl⟩ := abort_op_ok hc hr
  have hfirst : ∀ rs : List (Addr × Option Addr), P (rs.flatMap fun r => withdrawRetire k r.2 c) := by
    intro rs
    induction rs with
    | nil => exact hnil
    | cons r _ ih => exact happend (hwithdraw r.2) ih
  obtain ⟨hP,-⟩ := for_each_all hnil happend (fun h th b is th' hb => by
    obtain ⟨is',his',hb⟩ := of_bind_ok hb
    cases hb
    exact ⟨hreset _ _ _ his',.refl th⟩) hjs
  exact ⟨happend (hfirst _) hP,rfl⟩

end Accesses

structure State where
  heap : Heap
  allocated : Finset Addr
  thread : Thread

/-- The allocator hands out a block only when it is not allocated. -/
def State.access (s : State) : Instr → Option State
  | .construct a blktype id =>
    if a ∈ s.allocated then none else some { s with
      heap := (Instr.construct a blktype id).write s.heap
      allocated := insert a s.allocated }
  | .deallocate b => some { s with allocated := s.allocated.erase b }
  | i => some { s with heap := i.write s.heap }

end Montage.Recoverable
