import Montage.LfHashTable.Threads

namespace Montage.LfHashTable
open Library

variable {K V : Type} {T : Table K} {s s' : State K V} {op : Op K V}
  {tmp : Option Nat} {seen seen' : Nat → Option V → Prop} {t : Nat}

/-- No node is linked or marked, so the map is the same. -/
structure Same (s s' : State K V) : Prop where
  committed : s'.committed = s.committed
  nodes : ∀ n ∈ s.committed, s'.key n = s.key n ∧ s'.val n = s.val n ∧
    (s'.word (.node n)).mark = (s.word (.node n)).mark

theorem Same.put {th : Thread K V} : Same s (s.put t th) := ⟨rfl,fun _ _ => ⟨rfl,rfl,rfl⟩⟩

/-- A commit adds the new node, and takes away the one that its exchange marks. -/
theorem commit_live {p : Pending V} (pc : Pc K V) (res : Res V) (w : Link)
    (hp : (s.thread t).toPending = p) (hown : Own s p op tmp)
    (hx : Published s x) (hmark : (s.word x).mark = false) (m : Nat) :
    (m ∈ ((s.commit t pc res).store x w).committed ∧
      (((s.commit t pc res).store x w).word (.node m)).mark = false) ↔
    (m ∈ s.committed ∧ (s.word (.node m)).mark = false ∧ ¬(x = .node m ∧ w.mark = true)) ∨
      tmp = some m := by
  have hmem : m ∈ ((s.commit t pc res).store x w).committed ↔ m ∈ s.committed ∨ tmp = some m := by
    show m ∈ s.committed ∪ (s.thread t).pendingAllocs.toFinset ↔ _
    rw [Finset.mem_union,List.mem_toFinset,show (s.thread t).pendingAllocs = p.pendingAllocs by
      rw [hp],hown.allocs,Option.mem_toList]
  rw [hmem]
  by_cases hm : x = .node m
  · subst hm
    have hm : m ∈ s.committed := hx
    rw [store_self]
    have htmp : tmp ≠ some m := by
      rintro rfl
      exact hown.unlinked hm
    simp [hm,hmark,htmp]
  · rw [store_other (Ne.symm hm)]
    by_cases htmp : tmp = some m
    · subst htmp
      have hword : (s.word (.node m)).mark = false := Fresh.mark hown
      simp [show ((s.commit t pc res).word (.node m)) = s.word (.node m) from rfl,hword]
    · simp [hm,htmp,show ((s.commit t pc res).word (.node m)) = s.word (.node m) from rfl]

variable [LinearOrder K]

theorem Same.holds (hs : Same s s') (h : Core T s) (h' : Core T s') {v : Option V} :
    Holds s' key v ↔ Holds s key v := by
  cases v with
  | none =>
    rw [h.holds_none,h'.holds_none,hs.committed]
    refine forall₂_congr fun n hn => ?_
    obtain ⟨hkey,_,hmark⟩ := hs.nodes n hn
    rw [hkey,hmark]
  | some =>
    rw [h.holds_some,h'.holds_some,hs.committed]
    refine exists_congr fun n => and_congr_right fun hn => ?_
    obtain ⟨hkey,hval,hmark⟩ := hs.nodes n hn
    rw [hkey,hval,hmark]

/-- At most one unmarked node has a key. -/
theorem Core.unique (h : Core T s) (hn : n ∈ s.committed) (hm : m ∈ s.committed)
    (hnlive : (s.word (.node n)).mark = false) (hmlive : (s.word (.node m)).mark = false)
    (hkey : s.key n = s.key m) : n = m := by
  obtain ⟨l,hl,hnl,hlive⟩ := h.mem_list (x := .node n) hn hnlive
  have hml := hlive m hm (by rw [home,hkey]) hmlive
  by_contra hne
  have hpair := h.pairwise hl
  obtain ⟨l1,l2,rfl⟩ := List.append_of_mem hnl
  obtain ⟨_,hafter,hbefore⟩ := List.pairwise_append.mp hpair
  rcases List.mem_append.mp hml with hml | hml
  · obtain ⟨_,heq,hmn⟩ := hbefore _ hml (.node n) (by simp)
    cases heq
    exact absurd hkey.symm ((hmn.2 m rfl).2 hmlive).ne
  · rcases List.mem_cons.mp hml with heq | hml
    · cases heq
      exact hne rfl
    · obtain ⟨_,heq,hnm⟩ := (List.pairwise_cons.mp hafter).1 _ hml
      cases heq
      exact absurd hkey ((hnm.2 n rfl).2 hnlive).ne

/-- Unlinking a marked node leaves the map as it is. -/
theorem Inv.unlink (h : Inv T seen s) (hx : Published s x) (hword : s.word x = ⟨some c,false⟩)
    (hc : s.word (.node c) = ⟨next,true⟩) :
    Inv T seen (s.store x ⟨next,false⟩) ∧ Same s (s.store x ⟨next,false⟩) := by
  have hmark : (s.word x).mark = false := by rw [hword]
  refine ⟨h.shift (h.toCore.unlink hx hword hc) ⟨le_rfl,fun n hn => ⟨hn,rfl,rfl⟩,?_⟩ rfl ?_,
    rfl,fun n _ => ⟨rfl,rfl,store_marks hmark rfl _⟩⟩
  · intro n _ hn
    refine store_other ?_
    rintro rfl
    rw [hmark] at hn
    cases hn
  · intro n hn
    refine ⟨hn,rfl,rfl,store_other ?_⟩
    rintro rfl
    exact hn hx

theorem Working.ended {p : Pending V} {help : Option (Res V)} {here : At V} {see : Option V → Prop}
    (h : Working s p op tmp help) (hhere : help = none → here.Inv T s p see op tmp) :
    (ended help here).Inv T s p see op tmp := by
  cases help with
  | none => exact hhere rfl
  | some => exact ⟨h.allocs,h.retires,.inl h.done⟩

theorem Core.bucket_node (h : Core T s) (hc : (s.word (.bucket (T.idx key))).ptr = some c) :
    Node T s key c := by
  obtain ⟨hmem,hbefore⟩ := h.order (.bucket (T.idx key)) c trivial hc
  exact ⟨hmem,hbefore.1⟩

theorem Core.next_node (h : Core T s) (hc : Node T s key c) (hx : (s.word (.node c)).ptr = some x) :
    Node T s key x := by
  obtain ⟨hmem,hbefore⟩ := h.order (.node c) x hc.1 hx
  exact ⟨hmem,hbefore.1.trans hc.2⟩

theorem Node.prev (h : Node T s key c) (hlt : s.key c < key) : Prev T s key (.node c) :=
  ⟨h.1,h.2,fun p hp => by cases hp; exact hlt⟩

section Find

variable {help : Option (Res V)} {prev : Loc} {p : Pending V} {see : Option V → Prop}

theorem find_scan (h : Core T s) (hnow : ∀ v, Holds s op.key v → see v)
    (ht : (At.find help).Inv T s p see op tmp) :
    (At.scan help (.bucket (T.idx op.key)) (s.word (.bucket (T.idx op.key))).ptr).Inv T s p see
      op tmp := by
  have hprev : Prev T s op.key (.bucket (T.idx op.key)) :=
    ⟨trivial,rfl,fun p hp => by cases hp⟩
  refine ⟨ht,hprev,fun c hc => h.bucket_node hc,fun hnull => hnow _ ?_⟩
  refine h.absent hprev (h.buckets _) fun c hc => ?_
  rw [hnull] at hc
  cases hc

theorem scan_check (h : Core T s) (hnow : ∀ v, Holds s op.key v → see v)
    (ht : (At.scan help prev (some c)).Inv T s p see op tmp) :
    (At.check help prev c (s.word (.node c))).Inv T s p see op tmp := by
  obtain ⟨hwork,hprev,hcurr,_⟩ := ht
  have hc := hcurr c rfl
  refine ⟨hwork,hprev,hc,fun x hx => h.next_node hc hx,fun _ => rfl,fun hmark => ⟨?_,?_⟩⟩
  · intro hkey
    exact hnow _ (h.holds_some.mpr ⟨c,hc.1,hmark,hkey,rfl⟩)
  · intro hlt hnull
    refine hnow _ (h.absent (hc.prev hlt) hmark fun x hx => ?_)
    rw [hnull] at hx
    cases hx

/-- `prev` still points to a node above the key: the key is absent now. -/
theorem check_missed (h : Core T s) (hnow : ∀ v, Holds s op.key v → see v)
    (ht : (At.check help prev c next).Inv T s p see op tmp) (hword : s.word prev = ⟨some c,false⟩)
    (hlt : op.key < s.key c) :
    (ended help (.missed prev (some c))).Inv T s p see op tmp := by
  obtain ⟨hwork,hprev,hc,_⟩ := ht
  have hnext : ∀ d, (s.word prev).ptr = some d → op.key < s.key d := by
    intro d hd
    rw [hword] at hd
    cases hd
    exact hlt
  refine hwork.ended fun hh => ?_
  subst hh
  refine ⟨hwork,hprev,fun d hd => ?_,hnow _ (h.absent hprev (by rw [hword]) hnext)⟩
  cases hd
  exact ⟨hc,hlt⟩

section
variable (ht : (At.check help prev c next).Inv T s p see op tmp)
include ht

theorem check_found (hmark : next.mark = false) (hkey : s.key c = op.key) :
    (ended help (.found prev c next.ptr)).Inv T s p see op tmp := by
  obtain ⟨hwork,hprev,hc,_,_,hopen⟩ := ht
  refine hwork.ended fun hh => ?_
  subst hh
  exact ⟨hwork,hprev,hc,hkey,(hopen hmark).1 hkey⟩

theorem check_scan (hmark : next.mark = false) (hlt : s.key c < op.key) :
    (At.scan help (.node c) next.ptr).Inv T s p see op tmp := by
  obtain ⟨hwork,_,hc,hnext,_,hopen⟩ := ht
  exact ⟨hwork,hc.prev hlt,hnext,(hopen hmark).2 hlt⟩

theorem check_unlink
    (hmark : next.mark = true) : (At.unlink help prev c next.ptr).Inv T s p see op tmp := by
  obtain ⟨hwork,hprev,hc,_,hmarked,_⟩ := ht
  refine ⟨hwork,hprev,hc,(hmarked hmark).trans ?_⟩
  rw [← hmark]

end

end Find

/-- The lists do not depend on nodes that are not linked. -/
theorem Core.congr (h : Core T s) (hcommitted : s'.committed = s.committed)
    (hretired : s'.retired = s.retired) (hmade : s.made ≤ s'.made)
    (hword : ∀ x, Published s x → s'.word x = s.word x)
    (hkey : ∀ n ∈ s.committed, s'.key n = s.key n) : Core T s' := by
  have hpub : ∀ x, Published s' x → Published s x := by
    intro x hx
    cases x with
    | bucket => trivial
    | node => exact hcommitted.subset hx
  have hhome : ∀ x, Published s x → home T s' x = home T s x := by
    intro x hx
    cases x with
    | bucket => rfl
    | node n => rw [home,hkey n hx,home]
  refine ⟨?_,?_,?_,?_,?_⟩
  · intro b
    rw [hword (.bucket b) trivial]
    exact h.buckets b
  · intro b
    obtain ⟨l,hl,hmem⟩ := h.lists b
    refine ⟨l,hl.congr fun x hx => ?_,?_⟩
    · rw [State.next,hword x (h.published hl x hx).1]
      rfl
    · intro m hm hidx hmark
      have hm := hcommitted.subset hm
      rw [hword (.node m) hm] at hmark
      exact hmem m hm (hkey m hm ▸ hidx) hmark
  · intro x m hx hm
    have hx := hpub x hx
    rw [hword x hx] at hm
    obtain ⟨hmem,hbefore,hkeys⟩ := h.order x m hx hm
    refine ⟨hcommitted ▸ hmem,?_,?_⟩
    · rw [hkey m hmem,hhome x hx]
      exact hbefore
    · rintro k rfl
      rw [hkey k hx,hkey m hmem,hword _ hx]
      exact hkeys k rfl
  · intro m hm
    exact lt_of_lt_of_le (h.made m (hcommitted.subset hm)) hmade
  · intro m
    rw [hretired,hcommitted]
    refine (h.retired m).trans (and_congr_right fun hm => ?_)
    rw [hword (.node m) hm]

/-- A thread writes its own node, which no other thread can see. -/
theorem Inv.store_own (h : Inv T seen s) (hn : (s.thread t).pc.fresh = some n) {th : Thread K V}
    (hth : th.pc.Inv T (s.store (.node n) w) th.toPending (seen t))
    (hown : ∀ m, th.pc.fresh = some m → m = n) :
    Inv T seen ((s.store (.node n) w).put t th) ∧ Same s ((s.store (.node n) w).put t th) := by
  have hfresh := (h.fresh hn).1
  have hword : ∀ m, m ≠ n → (s.store (.node n) w).word (.node m) = s.word (.node m) := fun m hm =>
    store_other (by simpa using hm)
  have hlinked : ∀ m ∈ s.committed, (s.store (.node n) w).word (.node m) = s.word (.node m) :=
    fun m hm => hword m fun heq => hfresh (heq ▸ hm)
  refine ⟨?_,rfl,fun m hm => ⟨rfl,rfl,congrArg Link.mark (hlinked m hm)⟩⟩
  refine h.move (h.toCore.congr rfl rfl le_rfl ?_ fun _ _ => rfl)
    ⟨le_rfl,fun m hm => ⟨hm,rfl,rfl⟩,fun m hm _ => hlinked m hm⟩ rfl (fun _ _ _ => id)
    ?_ ?_ ?_
  · intro x hx
    refine store_other ?_
    rintro rfl
    exact hfresh hx
  · refine hth.mono { Grows.refl (s.store (.node n) w) with } (fun _ => id) fun m hm => ?_
    obtain ⟨_,hm⟩ := hth.of_fresh hm
    exact ⟨hm.unlinked,rfl,rfl,rfl⟩
  · intro m hm
    rw [hown m hm]
    exact .inl hn
  · intro u m hu hm
    refine ⟨(h.fresh hm).1,rfl,rfl,hword m ?_⟩
    rintro rfl
    exact hu (h.own u t m hm hn)

theorem Inv.commit (h : Inv T seen s) (hn : (s.thread t).pc.fresh = tmp)
    (hown : Own s (s.thread t).toPending op tmp) (hx : Published s x)
    (hmark : (s.word x).mark = false) {pc : Pc K V}
    (hcore : Core T ((s.commit t pc res).store x w))
    (hth : Grows s ((s.commit t pc res).store x w) →
      pc.Inv T ((s.commit t pc res).store x w) ⟨.empty,some res⟩ (seen t))
    (hfresh : pc.fresh = none) : Inv T seen ((s.commit t pc res).store x w) := by
  have hg : Grows s ((s.commit t pc res).store x w) := by
    refine ⟨le_rfl,fun n hn => ⟨Finset.mem_union_left _ hn,rfl,rfl⟩,?_⟩
    intro n _ hm
    refine store_other ?_
    rintro rfl
    rw [hmark] at hm
    cases hm
  refine h.move hcore hg rfl (fun _ _ _ => id) (hth hg) ?_ ?_
  · intro n hn
    rw [hfresh] at hn
    cases hn
  · intro u n hu hun
    have hunlinked := (h.fresh hun).1
    refine ⟨?_,rfl,rfl,store_other ?_⟩
    · intro hmem
      rcases Finset.mem_union.mp hmem with hmem | hmem
      · exact hunlinked hmem
      · rw [hown.allocs,List.mem_toFinset,Option.mem_toList] at hmem
        exact hu (h.own u t n hun (hn.trans hmem))
    · rintro rfl
      exact hunlinked hx

/-- After the commit the key has the new value, and other keys have theirs. -/
theorem commit_holds {p : Pending V} {pc : Pc K V} (hp : (s.thread t).toPending = p)
    (h : Core T s) (h' : Core T ((s.commit t pc res).store x w)) (hown : Own s p op tmp)
    (hx : Published s x) (hmark : (s.word x).mark = false)
    (hold : ∀ m ∈ s.committed, (s.word (.node m)).mark = false → s.key m = op.key →
      x = .node m ∧ w.mark = true)
    (hkey : ∀ m, x = .node m → w.mark = true → s.key m = op.key) :
    Holds ((s.commit t pc res).store x w) op.key op.newVal ∧
      ∀ key, key ≠ op.key → ∀ v, Holds s key v → Holds ((s.commit t pc res).store x w) key v := by
  have hlive := commit_live pc res w hp hown hx hmark
  refine ⟨?_,?_⟩
  · rw [hown.newVal]
    cases htmp : tmp with
    | none =>
      refine h'.holds_none.mpr fun m hm hmark' heq => ?_
      rcases (hlive m).mp ⟨hm,hmark'⟩ with ⟨hm,hmark',hnot⟩ | hm
      · exact hnot (hold m hm hmark' heq)
      · rw [htmp] at hm
        cases hm
    | some n =>
      subst htmp
      have hfresh : Fresh s p op n := hown
      obtain ⟨hm,hmark'⟩ := (hlive n).mpr (.inr rfl)
      exact h'.holds_some.mpr ⟨n,hm,hmark',hfresh.key,rfl⟩
  · intro key hne v hv
    have htmp : ∀ m, tmp = some m → s.key m = op.key := by
      rintro m rfl
      exact Fresh.key hown
    cases v with
    | none =>
      have hnone := h.holds_none.mp hv
      refine h'.holds_none.mpr fun m hm hmark' => ?_
      rcases (hlive m).mp ⟨hm,hmark'⟩ with ⟨hm,hmark',_⟩ | hm
      · exact hnone m hm hmark'
      · exact fun heq => hne (heq.symm.trans (htmp m hm))
    | some =>
      obtain ⟨m,hm,hmark',hmkey,hval⟩ := h.holds_some.mp hv
      obtain ⟨hm',hmark''⟩ := (hlive m).mpr (.inl ⟨hm,hmark',fun hcon =>
        hne (hmkey.symm.trans (hkey m hcon.1 hcon.2))⟩)
      exact h'.holds_some.mpr ⟨m,hm',hmark'',hmkey,hval⟩

/-- The call takes effect: its key goes from what it was to its new value. -/
def Performs (s : State K V) (op : Op K V) (res : Res V) (s' : State K V) : Prop :=
  ∃ old, Holds s op.key old ∧ op.apply old = (res,op.newVal) ∧ Holds s' op.key op.newVal ∧
    ∀ key, key ≠ op.key → ∀ v, Holds s key v → Holds s' key v

theorem mark_core (h : Core T s) {p : Pending V} {see : Option V → Prop}
    (hp : (s.thread t).toPending = p)
    (ht : (At.mark prev c next new res).Inv T s p see op tmp)
    (hword : s.word (.node c) = ⟨next,false⟩) (pc : Pc K V) :
    Core T ((s.commit t pc res).store (.node c) ⟨new,true⟩) := by
  subst hp
  obtain ⟨⟨hown,hretires,_⟩,_,hc,hkey,_,_,hnone,hsome⟩ := ht
  cases htmp : tmp with
  | none =>
    cases hnone htmp
    rw [htmp] at hown
    refine h.mark hc.1 hword ?_ ?_
    · simp [State.commit,State.store,hretires]
    · simp [State.commit,State.store,hown.2]
  | some n =>
    obtain ⟨rfl,hnword⟩ := hsome n htmp
    subst htmp
    have hfresh : Fresh s (s.thread t).toPending op n := hown
    have hkeys : s.key c = s.key n := hkey.trans hfresh.key.symm
    refine h.extend (x := .node c) (r := next) (n := n) hc.1 hword hfresh.unlinked hfresh.made hnword
      ?_ ?_ ?_ ?_ ?_ ?_ rfl
    · rw [home,hkeys]
    · intro p hp
      cases hp
      exact ⟨hkeys.le,fun hno => by cases hno⟩
    · -- The node was not marked until now, so what follows it is above the key.
      intro d hd
      obtain ⟨_,hbefore⟩ := h.order (.node c) d hc.1 (by rw [hword]; exact hd)
      rw [← hkeys]
      exact (hbefore.2 c rfl).2 (by rw [hword])
    · intro b hb
      cases hb
    · simp [State.commit,State.store,hfresh.allocs]
    · intro m
      simp [State.commit,State.store,hretires,eq_comm,or_comm]

/-- The linearization point of calls that replace or remove a node. -/
theorem Inv.mark (h : Inv T seen s)
    (hpc : (s.thread t).pc = .run op tmp (.mark prev c next new res))
    (hword : s.word (.node c) = ⟨next,false⟩) :
    Inv T seen ((s.commit t (.run op tmp (.swing prev c new res)) res).store (.node c) ⟨new,true⟩) ∧
    Performs s op res
      ((s.commit t (.run op tmp (.swing prev c new res)) res).store (.node c) ⟨new,true⟩) := by
  have ht := h.running hpc
  have hcore := mark_core h.toCore rfl ht hword (.run op tmp (.swing prev c new res))
  obtain ⟨⟨hown,hretires,hdone⟩,hprev,hc,hkey,hmarks,hres,hnone,hsome⟩ := ht
  have hpub : Published s (.node c) := hc.1
  have hmark : (s.word (.node c)).mark = false := by rw [hword]
  have hlive : ∀ m ∈ s.committed, (s.word (.node m)).mark = false → s.key m = op.key →
      Loc.node c = .node m ∧ true = true := by
    intro m hm hmmark hmkey
    rw [h.toCore.unique hc.1 hm hmark hmmark (hkey.trans hmkey.symm)]
    exact ⟨rfl,rfl⟩
  refine ⟨h.commit (by rw [hpc]; rfl) hown hpub hmark hcore ?_ rfl,?_⟩
  · intro hg
    exact ⟨⟨rfl,rfl,rfl⟩,hprev.mono hg,hc.mono hg,store_self⟩
  · refine ⟨some (s.val c),h.toCore.holds_some.mpr ⟨c,hc.1,hmark,hkey,rfl⟩,?_,
      commit_holds rfl h.toCore hcore hown hpub hmark hlive ?_⟩
    · rw [hres]
      exact Op.apply_some hmarks _
    · rintro m heq _
      cases heq
      exact hkey

/-- The linearization point of calls that add a key. -/
theorem Inv.link (h : Inv T seen s) (hpc : (s.thread t).pc = .run op tmp (.link prev curr res))
    (hword : s.word prev = ⟨curr,false⟩) :
    Inv T seen ((s.commit t (.run op tmp (.returned res)) res).store prev ⟨tmp,false⟩) ∧
    Performs s op res ((s.commit t (.run op tmp (.returned res)) res).store prev ⟨tmp,false⟩) := by
  have ht := h.running hpc
  obtain ⟨⟨hown,hretires,hdone⟩,hprev,hcurr,⟨n,rfl,hnword⟩,hres⟩ := ht
  have hfresh : Fresh s (s.thread t).toPending op n := hown
  have hmark : (s.word prev).mark = false := by rw [hword]
  have hcore : Core T ((s.commit t (.run op (some n) (.returned res)) res).store prev
      ⟨some n,false⟩) := by
    refine h.toCore.extend (x := prev) (r := curr) (n := n) hprev.1 hword hfresh.unlinked hfresh.made
      hnword ?_ ?_ ?_ ?_ ?_ ?_ rfl
    · rw [hfresh.key]
      exact hprev.2.1.symm
    · intro p hp
      have hlt := hprev.2.2 p hp
      rw [hfresh.key]
      exact ⟨hlt.le,fun _ => hlt⟩
    · intro c hc
      rw [hfresh.key]
      exact (hcurr c hc).2
    · exact fun _ _ => rfl
    · simp [State.commit,State.store,hfresh.allocs]
    · intro m
      simp [State.commit,State.store,hretires]
  have habsent : Holds s op.key none := h.toCore.absent hprev hmark fun c hc => by
    rw [hword] at hc
    exact (hcurr c hc).2
  refine ⟨h.commit (by rw [hpc]; rfl) hown hprev.1 hmark hcore ?_ rfl,?_⟩
  · intro _
    exact ⟨rfl,rfl,.inl rfl⟩
  · refine ⟨none,habsent,hres,commit_holds rfl h.toCore hcore hown hprev.1 hmark ?_ ?_⟩
    · intro m hm hmmark hmkey
      exact absurd hmkey (h.toCore.holds_none.mp habsent m hm hmmark)
    · rintro m _ hno
      cases hno

end Montage.LfHashTable
