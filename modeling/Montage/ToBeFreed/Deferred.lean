import Montage.ToBeFreed.Thread
import Mathlib.Data.List.Perm.Basic

namespace Montage.ToBeFreed
open Library Function List Option

/-- `register_free` for a block, under the epoch of the operation or the next. -/
def register (th : Thread) (c : Nat) (w : Waiting) : Option Thread :=
  if w.label = c ∨ w.label = c + 1 then some (registerFree th w.blk w.label) else none

/-- Operations that only register blocks, in epochs up to the last `uint64_t`. -/
def deferStep : Kind → Thread → Act Waiting → Option Thread :=
  stepWith (fun c => initEpoch ≤ c ∧ c ≤ uint64Max) register

def Thread.waiting (th : Thread) : List Waiting := (List.range epochWindow).flatMap th.buckets

def registration : Act Waiting → Option Waiting
  | .instr w => some w
  | _ => none

def registered (ms : List (Move Thread (Act Waiting))) : List Waiting :=
  ms.filterMap fun m => registration m.act

variable {k : Kind} {th th' : Thread} {a : Act Waiting} {c i j last : Nat} {w w' : Waiting}
  {ms : List (Move Thread (Act Waiting))}

theorem register_cases (hs : register th c w = some th') :
    (w.label = c ∨ w.label = c + 1) ∧ th' = registerFree th w.blk w.label := by
  unfold register at hs
  split at hs
  next hl => exact ⟨hl,(some.inj hs).symm⟩
  next => cases hs

theorem defer_inv (h : Inv k th) (hs : deferStep k th a = some th') : Inv k th' := by
  refine step_with_inv h ?_ ?_ hs
  · intro c hc
    simp only [initEpoch] at hc
    omega
  · intro c w hop htodo hi
    obtain ⟨hl,rfl⟩ := register_cases hi
    exact register_free_inv h hop htodo hl

theorem flat_map_update_perm (f : Nat → List Waiting) (w : Waiting) {js : List Nat}
    (hnodup : js.Nodup) (hj : j ∈ js) :
    (js.flatMap (update f j (w :: f j))).Perm (w :: js.flatMap f) := by
  induction js with
  | nil => cases hj
  | cons i js ih =>
    obtain ⟨hi,hnodup⟩ := nodup_cons.mp hnodup
    simp only [flatMap_cons]
    by_cases hij : i = j
    · subst hij
      -- the other buckets are not the one that changes
      have hrest : js.flatMap (update f i (w :: f i)) = js.flatMap f := by
        apply flatMap_congr
        intro x hx
        have hne : x ≠ i := by
          rintro rfl
          exact hi hx
        exact update_of_ne hne _ _
      rw [update_self,hrest,cons_append]
    · rw [update_of_ne hij]
      have hj : j ∈ js := (mem_cons.mp hj).resolve_left (Ne.symm hij)
      exact ((ih hnodup hj).append_left (f i)).trans perm_middle

theorem waiting_update_perm {th th' : Thread} (hj : j < epochWindow)
    (hb : th.buckets j = w :: th'.buckets j)
    (hother : ∀ i, i ≠ j → th.buckets i = th'.buckets i) :
    th.waiting.Perm (w :: th'.waiting) := by
  have heq : th.buckets = update th'.buckets j (w :: th'.buckets j) := by
    funext i
    by_cases hi : i = j
    · subst hi
      rw [hb,update_self]
    · rw [hother i hi,update_of_ne hi]
  unfold Thread.waiting
  rw [heq]
  exact flat_map_update_perm _ w nodup_range (mem_range.mpr hj)

theorem mod_window (l : Nat) : l % epochWindow < epochWindow := Nat.mod_lt _ (by decide)

/-- One step of the deferred frees: a block that is due leaves its bucket and is freed, or the
bucket is empty. -/
theorem help_free_local_effect (h : Inv k th) (hop : th.op = some c) (htodo : th.todo = i :: rest) :
    ((helpFreeLocal th i c rest).freed = th.freed ∧
      (helpFreeLocal th i c rest).waiting = th.waiting) ∨
    ∃ w : Waiting, w.label + 2 ≤ c ∧ (helpFreeLocal th i c rest).freed = ⟨w.blk,c⟩ :: th.freed ∧
      th.waiting.Perm (w :: (helpFreeLocal th i c rest).waiting) := by
  cases hb : th.buckets (i % epochWindow) with
  | nil => exact .inl (by simp [helpFreeLocal,hb,Thread.waiting])
  | cons w ws =>
    refine .inr ⟨w,?_,by simp [helpFreeLocal,hb,deallocate],?_⟩
    · have hlabel := h.head_bucket hop htodo (w := w) (by simp [hb])
      have hdue := h.due c hop i (by simp [htodo])
      omega
    · apply waiting_update_perm (mod_window i)
      · simp [helpFreeLocal,hb,deallocate]
      · intro j hj
        simp [helpFreeLocal,hb,deallocate,hj]

theorem register_waiting (th : Thread) (w : Waiting) :
    (registerFree th w.blk w.label).waiting.Perm (w :: th.waiting) := by
  apply waiting_update_perm (mod_window w.label)
  · simp [registerFree]
  · intro j hj
    simp [registerFree,hj]

/-- A move frees nothing and adds what it registers to the buckets, or it frees a block of the
buckets that is due. -/
theorem defer_effect (h : Inv k th) (hs : deferStep k th a = some th') :
    (th'.freed = th.freed ∧ th'.waiting.Perm ((registration a).toList ++ th.waiting)) ∨
    (a = .drain ∧ ∃ (w : Waiting) (c : Nat), th.op = some c ∧ w.label + 2 ≤ c ∧
      th'.freed = ⟨w.blk,c⟩ :: th.freed ∧ th.waiting.Perm (w :: th'.waiting)) := by
  obtain ⟨c,rfl,-,-,-,rfl⟩ | ⟨c,i,rest,rfl,hop,htodo,rfl⟩ | ⟨c,w,rfl,-,-,hi⟩ | ⟨c,rfl,-,-,rfl⟩ :=
    step_cases hs
  · refine .inl ?_
    unfold freeOnNewEpoch
    split <;> exact ⟨rfl,Perm.refl _⟩
  · rcases help_free_local_effect h hop htodo with ⟨hfreed,hwaiting⟩ | ⟨w,hdue,hfreed,hwaiting⟩
    · exact .inl ⟨hfreed,Perm.of_eq hwaiting⟩
    · exact .inr ⟨rfl,w,c,hop,hdue,hfreed,hwaiting⟩
  · obtain ⟨-,rfl⟩ := register_cases hi
    exact .inl ⟨rfl,register_waiting th w⟩
  · exact .inl ⟨rfl,Perm.refl _⟩

theorem run_inv (run : Run (deferStep k) (fun _ _ => True) (start last) ms th) : Inv k th :=
  run.invariant (Inv k) (start_inv k last) fun _ _ _ h _ hs => defer_inv h hs

/-- The blocks that have been freed, with the labels they were registered under, and the blocks
that wait are the ones that have been registered. -/
theorem run_balance (run : Run (deferStep k) (fun _ _ => True) (start last) ms th) :
    ∃ ds : List (Waiting × Nat), th.freed = ds.map (fun d => ⟨d.1.blk,d.2⟩) ∧
      (ds.map Prod.fst ++ th.waiting).Perm (registered ms) ∧ ∀ d ∈ ds, d.1.label + 2 ≤ d.2 := by
  induction run with
  | nil => exact ⟨[],rfl,by simp [registered,start,Thread.waiting],by simp⟩
  | @snoc ms th a th' run _ next ih =>
    obtain ⟨ds,hfreed,hperm,hdue⟩ := ih
    have hregistered : registered (ms ++ [⟨th,a,th'⟩]) = registered ms ++ (registration a).toList := by
      cases h : registration a <;> simp [registered,h]
    rw [hregistered]
    rcases defer_effect (run_inv run) next with ⟨hsame,hwaiting⟩ | ⟨rfl,w,c,-,hlate,hnew,hwaiting⟩
    · refine ⟨ds,hsame.trans hfreed,?_,hdue⟩
      refine (hwaiting.append_left _).trans ((perm_append_comm_assoc _ _ _).trans ?_)
      exact (hperm.append_left _).trans perm_append_comm
    · refine ⟨(w,c) :: ds,by rw [hnew,hfreed]; rfl,?_,?_⟩
      · simp only [registration,toList_none,append_nil,map_cons,cons_append]
        exact (perm_middle.symm.trans (hwaiting.symm.append_left _)).trans hperm
      · intro d hd
        rcases mem_cons.mp hd with rfl | hd
        · exact hlate
        · exact hdue d hd

theorem mem_waiting : w ∈ th.waiting → th.Waits w := by
  intro hw
  obtain ⟨j,-,hw⟩ := mem_flatMap.mp hw
  exact ⟨j,hw⟩

theorem Inv.one_label (h : Inv k th) (hw : w ∈ th.buckets j) (hw' : w' ∈ th.buckets j) :
    w.label = w'.label := by
  have hmod : w.label % 4 = w'.label % 4 := (h.bucket j w hw).symm.trans (h.bucket j w' hw')
  -- any two labels that wait are at most two apart
  have hnear : ∀ {w w' : Waiting}, th.Waits w → th.Waits w' → w'.label ≤ w.label + 2 := by
    intro w w' hw hw'
    cases hop : th.op with
    | none =>
      have h1 := (h.idle hop).2 w hw
      have h2 := (h.idle hop).2 w' hw'
      omega
    | some c =>
      obtain ⟨-,hhi,hnext⟩ := h.waiting c hop w' hw'
      rcases (h.waiting c hop w hw).1 with hmem | hlo
      · exact hnext _ hmem
      · omega
  have h1 := hnear ⟨j,hw⟩ ⟨j,hw'⟩
  have h2 := hnear ⟨j,hw'⟩ ⟨j,hw⟩
  omega

theorem bucket_drains (n : Nat) : ∀ (th : Thread), th.op = some c → th.todo = i :: rest →
    (th.buckets (i % epochWindow)).length = n → ∃ m th',
      play (deferStep k) th (replicate m .drain) = some th' ∧ th'.op = some c ∧
        th'.todo = rest := by
  induction n with
  | zero =>
    intro th hop htodo hn
    refine ⟨1,{ th with todo := rest },?_,hop,rfl⟩
    have hb := eq_nil_of_length_eq_zero hn
    simp [play,deferStep,stepWith,hop,htodo,helpFreeLocal,hb]
  | succ n ih =>
    intro th hop htodo hn
    obtain ⟨w,ws,hb⟩ := exists_cons_of_length_eq_add_one hn
    have hstep : deferStep k th .drain = some (helpFreeLocal th i c rest) := by
      simp [deferStep,stepWith,hop,htodo]
    obtain ⟨m,th',hplay,hdone⟩ := ih (helpFreeLocal th i c rest)
      (by simp [helpFreeLocal,hb,deallocate,hop]) (by simp [helpFreeLocal,hb,deallocate,htodo])
      (by
        simp only [helpFreeLocal,hb,deallocate,update_self]
        rw [hb] at hn
        simpa using hn)
    refine ⟨m + 1,th',?_,hdone⟩
    rw [replicate_succ]
    simp [play,hstep,hplay]

theorem begin_drains (todo : List Nat) : ∀ (th : Thread), th.op = some c → th.todo = todo →
    ∃ m th', play (deferStep k) th (replicate m .drain) = some th' ∧ th'.op = some c ∧
      th'.todo = [] := by
  induction todo with
  | nil =>
    intro th hop htodo
    exact ⟨0,th,rfl,hop,htodo⟩
  | cons _ _ ih =>
    intro th hop htodo
    obtain ⟨m,th1,hplay1,hop1,htodo1⟩ := bucket_drains (k := k) _ th hop htodo rfl
    obtain ⟨m',th2,hplay2,hdone⟩ := ih th1 hop1 htodo1
    refine ⟨m + m',th2,?_,hdone⟩
    rw [replicate_add,play_append,hplay1]
    exact hplay2

/-- Every registered block is freed once, two epochs after its label and when an operation of such
an epoch begins at the latest. In any run the blocks freed so far and those still in the buckets are
the ones registered, and what was freed was due; a block is freed only by an operation that begins,
in its epoch; none that is due is left once an operation has begun, which takes finitely many steps;
and no two labels share a bucket. -/
theorem frees_deferred (run : Run (deferStep k) (fun _ _ => True) (start last) ms th) :
    (∃ ds : List (Waiting × Nat), th.freed = ds.map (fun d => ⟨d.1.blk,d.2⟩) ∧
      (ds.map Prod.fst ++ th.waiting).Perm (registered ms) ∧ ∀ d ∈ ds, d.1.label + 2 ≤ d.2) ∧
    (∀ m ∈ ms, m.post.freed = m.pre.freed ∨ m.act = .drain ∧
      ∃ b c, m.pre.op = some c ∧ m.post.freed = ⟨b,c⟩ :: m.pre.freed) ∧
    (∀ c, th.op = some c → th.todo = [] → ∀ w ∈ th.waiting, c < w.label + 2) ∧
    (∀ c, th.op = some c → ∃ n th',
      play (deferStep k) th (replicate n .drain) = some th' ∧ th'.op = some c ∧
        th'.todo = []) ∧
    ∀ j, ∀ w ∈ th.buckets j, ∀ w' ∈ th.buckets j,
      j = w.label % epochWindow ∧ w.label = w'.label := by
  have hinv := run_inv run
  refine ⟨run_balance run,?_,?_,?_,?_⟩
  · intro m hm
    obtain ⟨hpre,-,hs⟩ := run.each (Inv k) (start_inv k last) (fun _ _ _ h _ hs => defer_inv h hs) m hm
    rcases defer_effect hpre hs with ⟨hsame,-⟩ | ⟨hact,w,c,hop,-,hnew,-⟩
    · exact .inl hsame
    · exact .inr ⟨hact,w.blk,c,hop,hnew⟩
  · intro c hop htodo w hw
    have hlabel := (hinv.waiting c hop w (mem_waiting hw)).1
    rw [htodo] at hlabel
    rcases hlabel with hmem | hlo
    · cases hmem
    · omega
  · intro c hop
    exact begin_drains th.todo th hop rfl
  · intro j w hw w' hw'
    exact ⟨hinv.bucket j w hw,hinv.one_label hw hw'⟩

/-- A block registered under label 6 in an operation of epoch 5 waits through an operation of
epoch 7 and is freed when one of epoch 9 begins. -/
theorem frees_deferred_skipping : ∃ ms th,
    Run (deferStep .nonblocking) (fun _ _ => True) (start nullEpoch) ms th ∧
      ms.map Move.act = [.begin 5,.instr ⟨1,6⟩,.finish,.begin 7,.drain,.drain,.finish,.begin 9,
        .drain,.drain] ∧
      th.freed = [⟨1,9⟩] ∧
      ∃ ds : List (Waiting × Nat), th.freed = ds.map (fun d => ⟨d.1.blk,d.2⟩) ∧
        (ds.map Prod.fst ++ th.waiting).Perm (registered ms) ∧ ∀ d ∈ ds, d.1.label + 2 ≤ d.2 := by
  obtain ⟨th,hplay,hfreed⟩ : ∃ th, play (deferStep .nonblocking) (start nullEpoch)
      [.begin 5,.instr ⟨1,6⟩,.finish,.begin 7,.drain,.drain,.finish,.begin 9,.drain,.drain] =
        some th ∧ th.freed = [⟨1,9⟩] := map_eq_some_iff.mp (by decide +kernel)
  obtain ⟨ms,run,hacts⟩ := Run.performed (fun _ _ => True) hplay fun _ _ _ => trivial
  exact ⟨ms,th,run,hacts,hfreed,(frees_deferred run).1⟩

end Montage.ToBeFreed
