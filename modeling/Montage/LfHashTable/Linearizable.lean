import Montage.LfHashTable.Steps

namespace Montage.LfHashTable
open Library Function

variable {K V : Type} [LinearOrder K] {T : Table K} {s s' : State K V} {op : Op K V}
  {tmp : Option Nat} {seen seen' : Nat → Option V → Prop} {t : Nat}
  {ms : List (Move (State K V) (Act K V))}

section
variable (h : Inv T seen s)
include h

/-- `put` and `replace` prepare their node, and everything that replaces or removes notes the
payload of the node found. -/
theorem Inv.prepare_mark
    (hpc : (s.thread t).pc = .run op (some n) (.found prev c next)) (hmarks : op.marks = true) :
    Inv T seen ((s.storeNext (some n) next).retirePayload t c
      (.run op (some n) (.mark prev c next (some n) (.val (some (s.val c)))))) ∧
    Same s ((s.storeNext (some n) next).retirePayload t c
      (.run op (some n) (.mark prev c next (some n) (.val (some (s.val c)))))) := by
  obtain ⟨⟨hown,hretires,hdone⟩,hprev,hc,hkey,_⟩ := h.running hpc
  have hfresh : Fresh s (s.thread t).toPending op n := hown
  refine h.store_own (by rw [hpc]; rfl) ?_ ?_
  · refine ⟨⟨?_,by simp [State.storeNext,State.store,hretires],hdone⟩,?_,hc,hkey,hmarks,rfl,?_,?_⟩
    · exact { hfresh with mark := by rw [store_self] }
    · exact hprev.mono ⟨le_rfl,fun m hm => ⟨hm,rfl,rfl⟩,fun m hm _ => store_other
        (by rintro heq; cases heq; exact hfresh.unlinked hm)⟩
    · intro hno
      cases hno
    · intro m hm
      cases hm
      exact ⟨rfl,store_self⟩
  · intro m hm
    cases hm
    rfl

theorem Inv.prepare_link (hpc : (s.thread t).pc = .run op (some n) (.missed prev curr))
    (hres : op.apply none = (res,op.newVal)) :
    Inv T seen ((s.storeNext (some n) curr).goto t (.run op (some n) (.link prev curr res))) ∧
    Same s ((s.storeNext (some n) curr).goto t (.run op (some n) (.link prev curr res))) := by
  obtain ⟨⟨hown,hretires,hdone⟩,hprev,hcurr,_⟩ := h.running hpc
  have hfresh : Fresh s (s.thread t).toPending op n := hown
  refine h.store_own (by rw [hpc]; rfl) ?_ ?_
  · refine ⟨⟨?_,hretires,hdone⟩,?_,hcurr,⟨n,rfl,store_self⟩,hres⟩
    · exact { hfresh with mark := by rw [store_self] }
    · exact hprev.mono ⟨le_rfl,fun m hm => ⟨hm,rfl,rfl⟩,fun m hm _ => store_other
        (by rintro heq; cases heq; exact hfresh.unlinked hm)⟩
  · intro m hm
    cases hm
    rfl

theorem Inv.delete_tmp {here : At V}
    (hpc : (s.thread t).pc = .run op tmp here) (hwait : Waiting s (s.thread t).toPending op tmp)
    (hv : seen t v) (hres : op.apply v = (res,v)) :
    Inv T seen (s.deleteTmp t tmp (.run op tmp (.returned res))) := by
  refine h.put ⟨?_,?_,.inr ⟨hwait.done,v,hv,hres⟩⟩ ?_
  · have hallocs := hwait.own.allocs
    cases tmp with
    | none => exact hallocs
    | some n =>
      show (s.thread t).pendingAllocs.erase n = []
      rw [hallocs]
      simp
  · cases tmp <;> exact hwait.retires
  · intro n hn
    cases hn

theorem Inv.after_found (hpc : (s.thread t).pc = .run op tmp (.found prev c next)) :
    Inv T seen (afterFound s t op tmp prev c next) ∧ Same s (afterFound s t op tmp prev c next) := by
  obtain ⟨hwait,hprev,hc,hkey,hv⟩ := h.running hpc
  cases op with
  | get =>
    refine ⟨h.goto hpc ⟨hwait.own.reads rfl,hwait.retires,.inr ⟨hwait.done,_,hv,rfl⟩⟩ ?_,Same.put⟩
    exact fun hno => by cases hno
  | put | replace =>
    obtain ⟨n,rfl,_⟩ := hwait.own.makes rfl
    exact h.prepare_mark hpc rfl
  | insert => exact ⟨h.delete_tmp hpc hwait hv rfl,Same.put⟩
  | remove =>
    cases tmp with
    | some => exact absurd hwait.own.val (by simp [Op.newVal])
    | none =>
      refine ⟨h.put ⟨⟨hwait.own,by simp [hwait.retires],hwait.done⟩,hprev,hc,hkey,rfl,rfl,
        fun _ => rfl,?_⟩ ?_,Same.put⟩
      · intro n hn
        cases hn
      · intro n hn
        cases hn

theorem Inv.after_missed (hpc : (s.thread t).pc = .run op tmp (.missed prev curr)) :
    Inv T seen (afterMissed s t op tmp prev curr) ∧ Same s (afterMissed s t op tmp prev curr) := by
  obtain ⟨hwait,hprev,hcurr,hv⟩ := h.running hpc
  cases op with
  | get | remove =>
    refine ⟨h.goto hpc ⟨hwait.own.reads rfl,hwait.retires,.inr ⟨hwait.done,_,hv,rfl⟩⟩ ?_,Same.put⟩
    exact fun hno => by cases hno
  | put | insert =>
    obtain ⟨n,rfl,_⟩ := hwait.own.makes rfl
    exact h.prepare_link hpc rfl
  | replace => exact ⟨h.delete_tmp hpc hwait hv rfl,Same.put⟩

def Keeps (T : Table K) (seen : Nat → Option V → Prop) (s : State K V) (a : Act K V)
    (s' : State K V) : Prop :=
  Inv T seen s' ∧
    if succeeds s a then
      ∃ op res, (s.thread a.thread).pc.op = some op ∧ (s.thread a.thread).done = none ∧
        (s'.thread a.thread).done = some res ∧ Performs s op res s'
    else Same s s'

omit h in
theorem Inv.quiet (h : Inv T seen s' ∧ Same s s') (hno : succeeds s a = false) :
    Keeps T seen s a s' := by
  refine ⟨h.1,?_⟩
  rw [if_neg (by simp [hno])]
  exact h.2

theorem Inv.stays {here here' : At V} (hpc : (s.thread t).pc = .run op tmp here)
    (hnew : here'.Inv T s (s.thread t).toPending (seen t) op tmp)
    (hearly : here'.early = true → here.early = true) (hno : succeeds s a = false) :
    Keeps T seen s a (s.goto t (.run op tmp here')) :=
  Inv.quiet ⟨h.goto hpc hnew hearly,Same.put⟩ hno

theorem check_keeps (hpc : (s.thread t).pc = .run op tmp (.check help prev c next))
    (hnow : ∀ v, Holds s op.key v → seen t v) :
    Keeps T seen s (.tick t fails) (advance T s t fails op tmp (.check help prev c next)) := by
  have ht := h.running hpc
  have hno : succeeds s (.tick t fails) = false := by simp [succeeds,hpc]
  simp only [advance]
  split
  next =>
    exact h.stays hpc ht.1 (by cases help <;> simp [At.early]) hno
  next hword =>
    have hword : s.word prev = ⟨some c,false⟩ := not_not.mp hword
    split
    next hmark => exact h.stays hpc (check_unlink ht hmark) (by cases help <;> simp [At.early]) hno
    next hmark =>
      have hmark : next.mark = false := by simpa using hmark
      split
      next hle =>
        split
        next hkey =>
          exact h.stays hpc (check_found ht hmark hkey) (by cases help <;> simp [At.early,ended]) hno
        next hkey =>
          have hlt := lt_of_le_of_ne hle (Ne.symm hkey)
          exact h.stays hpc (check_missed h.toCore hnow ht hword hlt)
            (by cases help <;> simp [At.early,ended]) hno
      next hle =>
        exact h.stays hpc (check_scan ht hmark (not_le.mp hle)) (by cases help <;> simp [At.early]) hno

theorem unlink_keeps (hpc : (s.thread t).pc = .run op tmp (.unlink help prev c next))
    (hnow : ∀ v, Holds s op.key v → seen t v) :
    Keeps T seen s (.tick t fails) (advance T s t fails op tmp (.unlink help prev c next)) := by
  obtain ⟨hwork,hprev,hc,hw⟩ := h.running hpc
  have hno : succeeds s (.tick t fails) = false := by simp [succeeds,hpc]
  simp only [advance]
  split
  next hok =>
    have hword : s.word prev = ⟨some c,false⟩ := by simp at hok; exact hok.2
    obtain ⟨hinv,hsame⟩ := h.unlink hprev.1 hword hw
    have hpc' : ((s.store prev ⟨next,false⟩).thread t).pc = .run op tmp (.unlink help prev c next) :=
      hpc
    obtain ⟨hwork',hprev',_⟩ := hinv.running hpc'
    have hscan : (At.scan help prev next).Inv T (s.store prev ⟨next,false⟩)
        ((s.store prev ⟨next,false⟩).thread t).toPending (seen t) op tmp := by
      refine ⟨hwork',hprev',fun x hx => ?_,fun hnull => hnow _ ?_⟩
      · exact h.toCore.next_node hc (by rw [hw]; exact hx)
      · -- Nothing follows `prev` now, so the key is absent, and was before.
        refine (hsame.holds h.toCore hinv.toCore).mp (hinv.toCore.absent hprev' ?_ fun x hx => ?_)
        · rw [store_self]
        · rw [store_self,hnull] at hx
          cases hx
    refine Inv.quiet ⟨hinv.goto hpc' hscan (by cases help <;> simp [At.early]),?_⟩ hno
    exact ⟨hsame.committed,hsame.nodes⟩
  next => exact h.stays hpc hwork (by cases help <;> simp [At.early]) hno

theorem swing_keeps (hpc : (s.thread t).pc = .run op tmp (.swing prev c new res)) :
    Keeps T seen s (.tick t fails) (advance T s t fails op tmp (.swing prev c new res)) := by
  obtain ⟨hfin,hprev,hc,hw⟩ := h.running hpc
  have hno : succeeds s (.tick t fails) = false := by simp [succeeds,hpc]
  simp only [advance]
  split
  next hok =>
    have hword : s.word prev = ⟨some c,false⟩ := by simp at hok; exact hok.2
    obtain ⟨hinv,hsame⟩ := h.unlink hprev.1 hword hw
    have hpc' : ((s.store prev ⟨new,false⟩).thread t).pc = .run op tmp (.swing prev c new res) := hpc
    refine Inv.quiet ⟨hinv.goto hpc' ⟨hfin.allocs,hfin.retires,.inl hfin.done⟩ ?_,?_⟩ hno
    · exact fun hno => by cases hno
    · exact ⟨hsame.committed,hsame.nodes⟩
  next => exact h.stays hpc hfin (fun hno => by cases hno) hno

theorem abort_keeps {here : At V} (hpc : (s.thread t).pc = .run op tmp here)
    (hearly : here.early = true) (hdone : (s.thread t).done = none) (hno : succeeds s a = false) :
    Keeps T seen s a (s.abort t (.run op tmp (.find none))) := by
  have hown := (h.running hpc).own hearly
  refine Inv.quiet ⟨h.put ⟨?_,rfl,hdone⟩ ?_,Same.put⟩ hno
  · cases tmp with
    | none => exact hown
    | some n => exact { (hown : Fresh s (s.thread t).toPending op n) with }
  · intro n hn
    rw [hpc,Pc.fresh,if_pos hearly]
    exact hn

theorem advance_keeps {here : At V} (hpc : (s.thread t).pc = .run op tmp here)
    (hnow : ∀ v, Holds s op.key v → seen t v) :
    Keeps T seen s (.tick t fails) (advance T s t fails op tmp here) := by
  have ht := h.running hpc
  cases here with
  | find help =>
    exact h.stays hpc (find_scan h.toCore hnow ht) (by cases help <;> simp [At.early])
      (by simp [succeeds,hpc])
  | scan help _ curr =>
    cases curr with
    | none =>
      refine h.stays hpc (ht.1.ended fun hh => ?_) (by cases help <;> simp [At.early,ended])
        (by simp [succeeds,hpc])
      subst hh
      exact ⟨ht.1,ht.2.1,fun c hc => (by cases hc),ht.2.2.2 rfl⟩
    | some =>
      exact h.stays hpc (scan_check h.toCore hnow ht) (by cases help <;> simp [At.early])
        (by simp [succeeds,hpc])
  | check => exact check_keeps h hpc hnow
  | unlink => exact unlink_keeps h hpc hnow
  | found => exact Inv.quiet (h.after_found hpc) (by simp [succeeds,hpc])
  | mark _ c next _ res =>
    simp only [advance]
    split
    next hok =>
      have hword : s.word (.node c) = ⟨next,false⟩ := by simp at hok; exact hok.2
      obtain ⟨hinv,hperforms⟩ := h.mark hpc hword
      refine ⟨hinv,?_⟩
      rw [if_pos (by simpa [succeeds,hpc] using hok)]
      exact ⟨op,res,by simp [Act.thread,hpc,Pc.op],ht.1.2.2,
        by simp [Act.thread,State.commit,State.store],hperforms⟩
    next hno => exact abort_keeps h hpc rfl ht.1.2.2 (by simpa [succeeds,hpc] using hno)
  | swing => exact swing_keeps h hpc
  | missed => exact Inv.quiet (h.after_missed hpc) (by simp [succeeds,hpc])
  | link prev curr res =>
    simp only [advance]
    split
    next hok =>
      have hword : s.word prev = ⟨curr,false⟩ := by simp at hok; exact hok.2
      obtain ⟨hinv,hperforms⟩ := h.link hpc hword
      refine ⟨hinv,?_⟩
      rw [if_pos (by simpa [succeeds,hpc] using hok)]
      exact ⟨op,res,by simp [Act.thread,hpc,Pc.op],ht.1.done,
        by simp [Act.thread,State.commit,State.store],hperforms⟩
    next hno => exact abort_keeps h hpc rfl ht.1.done (by simpa [succeeds,hpc] using hno)
  | returned =>
    refine Inv.quiet ⟨h.put ⟨ht.1,ht.2.1⟩ ?_,Same.put⟩ (by simp [succeeds,hpc])
    intro n hn
    cases hn

theorem call_keeps (hpc : (s.thread t).pc = .idle)
    (hseen : ∀ u, u ≠ t → ∀ v, seen u v → seen' u v) :
    Keeps T seen' s (.call t op) (call s t op) := by
  have ht := h.threads t
  rw [hpc] at ht
  unfold call
  split
  next hop =>
    refine Inv.quiet ⟨h.move { h.toCore with } { Grows.refl s with } rfl hseen ?_ ?_ ?_,Same.put⟩ rfl
    · exact ⟨⟨hop,ht.1⟩,ht.2,rfl⟩
    · intro n hn
      cases hn
    · exact fun u n _ hn => ⟨(h.fresh hn).1,rfl,rfl,rfl⟩
  next v hop =>
    have hold : ∀ {β : Type} (f : Nat → β) b, ∀ n < s.made, update f s.made b n = f n :=
      fun f b n hn => update_of_ne (ne_of_lt hn) _ _
    have hword : ∀ n < s.made, (s.newNode op.key v).word (.node n) = s.word (.node n) :=
      fun n hn => newNode_other (by simpa using ne_of_lt hn)
    have hlinked : ∀ x, Published s x → (s.newNode op.key v).word x = s.word x := by
      intro x hx
      cases x with
      | bucket => exact newNode_other (by simp)
      | node n => exact hword n (h.made n hx)
    refine Inv.quiet ⟨h.move ?_ ?_ rfl hseen ?_ ?_ ?_,?_⟩ rfl
    · exact h.toCore.congr rfl rfl (Nat.le_succ _) hlinked fun n hn => hold _ _ n (h.made n hn)
    · exact ⟨Nat.le_succ _,fun n hn => ⟨hn,hold _ _ n (h.made n hn),hold _ _ n (h.made n hn)⟩,
        fun n hn _ => hword n (h.made n hn)⟩
    · have hself : ∀ {β : Type} (f : Nat → β) b, update f s.made b s.made = b :=
        fun _ _ => update_self _ _ _
      refine ⟨⟨fun hmem => lt_irrefl _ (h.made _ hmem),Nat.lt_succ_self _,hself _ _,?_,?_,?_⟩,
        ht.2,rfl⟩
      · rw [hop]
        exact congrArg some (hself _ _).symm
      · have hnew : (s.newNode op.key v).word (.node s.made) = ⟨none,false⟩ := newNode_self
        exact congrArg Link.mark hnew
      · simp [ht.1]
    · intro n hn
      cases hn
      exact .inr le_rfl
    · intro u n _ hn
      obtain ⟨hunlinked,hmade⟩ := h.fresh hn
      exact ⟨hunlinked,hold _ _ n hmade,hold _ _ n hmade,hword n hmade⟩
    · exact ⟨rfl,fun n hn => ⟨hold _ _ n (h.made n hn),hold _ _ n (h.made n hn),
        congrArg Link.mark (hword n (h.made n hn))⟩⟩

end

theorem advance_thread (T : Table K) (s : State K V) (t : Nat) (fails : Bool) (op : Op K V)
    (tmp : Option Nat) (here : At V) : ∃ th, (advance T s t fails op tmp here).thread =
      update s.thread t th ∧ ∀ op', th.pc.op = some op' → op' = op := by
  cases here with
  | scan _ _ curr => cases curr <;> exact ⟨_,rfl,by simp [Pc.op]⟩
  | find | returned => exact ⟨_,rfl,by simp [Pc.op]⟩
  | check =>
    simp only [advance]
    repeat' split
    all_goals exact ⟨_,rfl,by simp [Pc.op]⟩
  | unlink | mark | swing | link =>
    simp only [advance]
    split
    all_goals exact ⟨_,rfl,by simp [Pc.op]⟩
  | found | missed => cases op <;> cases tmp <;> exact ⟨_,rfl,by simp [Pc.op]⟩

def Seen (ms : List (Move (State K V) (Act K V))) (s : State K V) (t : Nat) (v : Option V) : Prop :=
  ∀ op, (s.thread t).pc.op = some op → Had ms t op.key v

theorem step_keeps (h : Inv T (Seen ms s) s) (hs : step T s a = some s') :
    Keeps T (Seen (ms ++ [⟨s,a,s'⟩]) s') s a s' := by
  cases a with
  | call t op =>
    simp only [step] at hs
    split at hs
    next hpc =>
      cases hs
      refine call_keeps h hpc fun u hu v hv op' hop' => ?_
      have hother : (call s t op).thread u = s.thread u := by
        unfold call
        split <;> exact update_of_ne hu _ _
      rw [hother] at hop'
      exact Since.snoc (hv op' hop') fun heq => hu heq.symm
    next => cases hs
  | tick t fails =>
    simp only [step] at hs
    split at hs
    next => cases hs
    next op tmp here hpc =>
      cases hs
      obtain ⟨th,hthread,hop⟩ := advance_thread T s t fails op tmp here
      refine advance_keeps (h.see fun u v hv op' hop' => ?_) hpc fun v hv op' hop' => ?_
      · refine Since.snoc (hv op' ?_) id
        rw [hthread] at hop'
        by_cases hu : u = t
        · rw [hu,update_self] at hop'
          rw [hu,hpc,hop op' hop']
          rfl
        · rw [update_of_ne hu] at hop'
          exact hop'
      · rw [hthread,update_self] at hop'
        rw [hop op' hop']
        exact Since.now hv id

theorem Keeps.linearizes {m : Move (State K V) (Act K V)} (h : Core T m.pre)
    (hk : Keeps T seen m.pre m.act m.post) : Linearizes m := by
  obtain ⟨hinv,hdoes⟩ := hk
  unfold Linearizes
  split
  next hyes =>
    rw [if_pos hyes] at hdoes
    obtain ⟨op,res,hop,hnone,hdone,old,hold,happly,hnew,hother⟩ := hdoes
    exact ⟨op,old,res,op.newVal,hop,hnone,hdone,hold,happly,hnew,hother⟩
  next hno =>
    rw [if_neg hno] at hdoes
    exact fun key v hv => (hdoes.holds h hinv.toCore).mpr hv

theorem inv_init (T : Table K) (key : Nat → K) (val : Nat → V) : Inv T seen (init key val) where
  buckets _ := rfl
  lists b := ⟨[.bucket b],.cons _ .nil,fun n hn => by simp [init] at hn⟩
  order x m _ hm := by cases hm
  made n hn := by simp [init] at hn
  retired n := by simp [init]
  threads t := ⟨rfl,rfl⟩
  own t u n hn := by cases hn

theorem Core.sorted (h : Core T s) : Sorted s := by
  refine ⟨?_,?_,?_⟩
  · intro b
    obtain ⟨l,hl,hchain⟩ := h.bucket_chain b
    refine ⟨l,hl,?_⟩
    have hpair := (List.pairwise_cons.mp (h.pairwise hchain)).2
    rw [List.pairwise_map] at hpair
    rw [List.pairwise_map,List.pairwise_filter]
    refine hpair.imp ?_
    rintro n m ⟨_,heq,hbefore⟩ hn _
    cases heq
    exact (hbefore.2 n rfl).2 (by simpa using hn)
  · intro n m hn hm hkey
    obtain ⟨hn,hnmark⟩ := h.live_iff.mp hn
    obtain ⟨hm,hmmark⟩ := h.live_iff.mp hm
    exact h.unique hn hm hnmark hmmark hkey
  · intro n
    rw [h.live_iff,h.retired]
    simp +contextual

theorem Inv.returns (h : Inv T (Seen ms s) s) (t : Nat) : Returns ms t (s.thread t) := by
  unfold Returns
  split
  next op tmp res hpc =>
    obtain ⟨_,_,hdone⟩ := h.running hpc
    rcases hdone with hdone | ⟨hdone,v,hv,hres⟩
    · exact .inl hdone
    · exact .inr ⟨hdone,v,hv op (by rw [hpc]; rfl),hres⟩
  next => trivial

/-- In every run of the table, the successful `CAS_verify`s are the updates of a map, calls
return what they have done or what they could see, and in every state the lists are sorted and
the registered and unretired payloads are those of the map. -/
theorem table_linearizable (T : Table K) (key : Nat → K) (val : Nat → V)
    (run : Run (step T) (fun _ _ => True) (init key val) ms s) :
    Sorted s ∧ (∀ m ∈ ms, Linearizes m) ∧ ∀ t, Returns ms t (s.thread t) := by
  have hrun : Inv T (Seen ms s) s ∧ ∀ m ∈ ms, Linearizes m := by
    induction run with
    | nil => exact ⟨inv_init T key val,by simp⟩
    | snoc _ _ hs ih =>
      obtain ⟨h,hms⟩ := ih
      have hkeeps := step_keeps h hs
      refine ⟨hkeeps.1,?_⟩
      intro m hm
      rcases List.mem_append.mp hm with hm | hm
      · exact hms m hm
      · cases List.mem_singleton.mp hm
        exact hkeeps.linearizes h.toCore
  exact ⟨hrun.1.toCore.sorted,hrun.2,hrun.1.returns⟩

/-- A thread puts 10 under key 1, another one replaces it by 20, and the first one gets that. -/
theorem table_linearizable_replaced :
    ∃ ms s, Run (step ⟨id,2⟩) (fun _ _ => True) (init (fun _ => 0) fun _ => 0 : State Nat Nat) ms s ∧
      (s.thread 0).pc = .run (.get 1) none (.returned (.val (some 20))) ∧
      Sorted s ∧ (∀ m ∈ ms, Linearizes m) ∧ ∀ t, Returns ms t (s.thread t) := by
  let acts : List (Act Nat Nat) := .call 0 (.put 1 10) :: List.replicate 5 (.tick 0 false) ++
    .call 1 (.replace 1 20) :: List.replicate 6 (.tick 1 false) ++
    .call 0 (.get 1) :: List.replicate 4 (.tick 0 false)
  have hplay : ∃ s, play (step ⟨id,2⟩) (init (fun _ => 0) fun _ => 0) acts = some s ∧
      (s.thread 0).pc = .run (.get 1) none (.returned (.val (some 20))) :=
    Option.map_eq_some_iff.mp (by decide)
  obtain ⟨s,hs,hpc⟩ := hplay
  obtain ⟨ms,run⟩ := Run.nil.reach hs
  exact ⟨ms,s,run,hpc,table_linearizable ⟨id,2⟩ _ _ run⟩

end Montage.LfHashTable
