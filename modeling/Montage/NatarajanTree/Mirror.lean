import Montage.NatarajanTree.Steps

namespace Montage.NatarajanTree
open Library Library.Maps Function List Option

variable {K V : Type} [LinearOrder K] {L L' : Set Nat} {s s' : State K V} {i n m t x : Nat}
  {flagged : Option (Nat × Option V)} {op : Call K V} {new : Option (Nat × Nat)} {here : At V}
  {rec : SeekRecord} {fails : Bool}

theorem Cleaning.retirable {flagged : Option Nat} {key : K} {side : Side}
    (hc : Cleaning L s key flagged rec n side) (h : Core L s) : s.retirable n = true := by
  obtain ⟨m,hm,hleaf⟩ := h.flagged _ hc.parent _ hc.flg
  rw [hc.child] at hm
  cases hm
  exact retirable_leaf hleaf (h.payload n (h.closed _ hc.parent _ n hc.child) hleaf)

theorem sentinel_edge (n : Nat) (c : Side) :
    sentinelEdge n c = ⟨none,false,false⟩ ∧ 1 < n ∨
      n < 2 ∧ ∃ m, sentinelEdge n c = .plain m ∧ 0 < m ∧ m < 5 := by
  cases n with
  | zero =>
    cases c with
    | left => exact .inr ⟨by omega,1,rfl,by omega,by omega⟩
    | right => exact .inr ⟨by omega,2,rfl,by omega,by omega⟩
  | succ n =>
    cases n with
    | zero =>
      cases c with
      | left => exact .inr ⟨by omega,4,rfl,by omega,by omega⟩
      | right => exact .inr ⟨by omega,3,rfl,by omega,by omega⟩
    | succ =>
      refine .inl ⟨?_,by omega⟩
      cases c <;> rfl

theorem sentinel_source {n m : Nat} {c : Side} (h : (sentinelEdge n c).ptr = some m) :
    n = (if m < 3 then 0 else 1) ∧ c = if m = 1 ∨ m = 4 then .left else .right := by
  rcases sentinel_edge n c with ⟨he,-⟩ | ⟨hn,-⟩
  · rw [he] at h
    cases h
  · rcases Nat.le_one_iff_eq_zero_or_eq_one.mp (Nat.le_of_lt_succ hn) with rfl | rfl <;>
      cases c <;> cases h <;> exact ⟨rfl,rfl⟩

theorem sentinel_level (n : Nat) : sentinelLevel n ≠ .finite := by
  unfold sentinelLevel
  split <;> simp

theorem init_inv (memory : Nat → Node K V) : Inv { n | n < 5 } (init memory) := by
  have hnext : ∀ n c, (init memory).next n c = (sentinelEdge n c).ptr := fun _ _ => rfl
  have hlevel : ∀ n, ((init memory).node n).level ≠ .finite := sentinel_level
  have hroot : Linked (init memory) nodeR := Library.Path.refl _
  have hs : Linked (init memory) nodeS := Reach.snoc (d := .left) hroot rfl
  have hleaf : ∀ n, ¬Leaf (init memory) n := fun n hn => hlevel n hn.2.1
  refine ⟨⟨by simp [nodeR],fun _ hn => hn,?_,?_,?_,?_,?_,?_,rfl,⟨hlevel _,hlevel _⟩,
    ⟨4,rfl,hlevel 4⟩,?_,?_,?_,?_,?_⟩,?_,?_⟩
  · intro n _ c m hm
    rcases sentinel_edge n c with ⟨he,-⟩ | ⟨-,m',he,-,hm'⟩
    · rw [hnext,he] at hm
      cases hm
    · rw [hnext,he] at hm
      cases hm
      exact hm'
  · intro n _
    by_cases hn : n < 2
    · refine .inr fun c => ?_
      rcases sentinel_edge n c with ⟨-,hn'⟩ | ⟨-,m,he,-⟩
      · omega
      · rw [hnext,he]
        simp [Edge.plain]
    · refine .inl fun c => ?_
      rcases sentinel_edge n c with ⟨he,-⟩ | ⟨hn',-⟩
      · exact he
      · omega
  · intro n m c d x _ _ hnx hmx
    obtain ⟨rfl,rfl⟩ := sentinel_source hnx
    obtain ⟨rfl,rfl⟩ := sentinel_source hmx
    exact ⟨rfl,rfl⟩
  · intro n _ c m hm
    rcases sentinel_edge n c with ⟨he,-⟩ | ⟨hn,-⟩
    · have hm' : sentinelEdge n c = .plain m := hm
      rw [he] at hm'
      cases hm'
    · rcases Nat.le_one_iff_eq_zero_or_eq_one.mp (Nat.le_of_lt_succ hn) with rfl | rfl
      · exact hroot
      · exact hs
  · intro n _ c ht
    have ht' : (sentinelEdge n c).tg = true := ht
    rcases sentinel_edge n c with ⟨he,-⟩ | ⟨-,m,he,-⟩ <;> rw [he] at ht' <;> cases ht'
  · intro n _ c hf
    have hf' : (sentinelEdge n c).flg = true := hf
    rcases sentinel_edge n c with ⟨he,-⟩ | ⟨-,m,he,-⟩ <;> rw [he] at hf' <;> cases hf'
  · intro n _ _ m _
    refine ⟨hlevel m,?_⟩
    rcases sentinel_edge n .right with ⟨he,-⟩ | ⟨-,m,he,-⟩ <;> exact congrArg Edge.flg he
  · exact fun n hn => absurd hn (hleaf n)
  · intro n
    exact iff_of_false (fun hn => Finset.notMem_empty n hn.1) (hleaf n)
  · intro n hn
    exact absurd hn (not_or.mpr ⟨Finset.notMem_empty n,Finset.notMem_empty n⟩)
  · exact fun n _ hn => absurd hn.1 (hlevel n)
  · exact fun t => ⟨rfl,rfl⟩
  · rintro t u x ⟨i,n,hfresh,-⟩
    cases hfresh

section
variable (h : Inv L s)
include h

theorem Inv.prepare (hpc : (s.thread t).pc = .run op (some (i,n)) flagged (.sought rec))
    (heq : s.nodeEqual op.key rec.leaf = false) :
    Inv L ((s.setInternal i n rec.leaf op.key).goto t
      (.run op (some (i,n)) flagged (.link rec))) := by
  obtain ⟨hret,hr⟩ := h.running hpc
  have hs : Sought L s op.key (flagged.map Prod.fst) rec := hr.rely
  obtain ⟨hop,hfresh,hallocs⟩ := hr.own rfl
  have hne : i ≠ rec.leaf := fun he => hfresh.internal.1 (he ▸ hs.leaf)
  have hready := set_internal_ready (n := n) heq hne
  have hnode : ∀ x, x ≠ i → (s.setInternal i n rec.leaf op.key).node x = s.node x :=
    fun x hx => update_of_ne hx _ _
  have hedge : ∀ x, x ≠ i → (s.setInternal i n rec.leaf op.key).edge x = s.edge x :=
    fun x hx => update_of_ne hx _ _
  have hL : ∀ x ∈ L, x ≠ i := fun x hx he => hfresh.internal.1 (he ▸ hx)
  obtain ⟨hcore,hg⟩ := h.core.frame ((s.setInternal i n rec.leaf op.key).goto t
    (.run op (some (i,n)) flagged (.link rec))) (fun x hx => hnode x (hL x hx))
    (fun x hx => hedge x (hL x hx)) le_rfl rfl rfl
  refine h.thread_step hcore hg rfl ⟨hret,hg.injected _ hr.injected,?_,fun _ => ⟨hop,?_,hallocs⟩,?_⟩
    ?_ ?_
  · exact ⟨hg.sought h.core hr.injected hs,i,n,rfl,hready.leaf,hready.other,hready.sides,
      hready.level⟩
  · refine ⟨hfresh.internal,hfresh.leaf,hfresh.ne,?_,?_,?_,?_⟩
    · exact (congrArg Node.level (hnode n hfresh.ne.symm)).trans hfresh.level
    · exact (congrArg Node.key (hnode n hfresh.ne.symm)).trans hfresh.key
    · exact fun hp => hfresh.payload ((congrArg Node.payload (hnode n hfresh.ne.symm)).symm.trans hp)
    · exact fun c => (congrFun (hedge n hfresh.ne.symm) c).trans (hfresh.edges c)
  · intro hdone
    cases hdone
  · intro x hx
    rw [hpc]
    exact .inl (owns_run rfl hx)
  · intro x _ hxL hown
    have hxi : x ≠ i := fun hxi => hown (by rw [hpc]; exact ⟨i,n,rfl,.inl hxi⟩)
    exact ⟨hnode x hxi,hedge x hxi,hxL⟩

theorem Inv.new_none (hpc : (s.thread t).pc = .run op new flagged here)
    (hdone : here.done = false) (hop : op.made = none) : new = none := by
  have ho := (h.running hpc).2.own hdone
  cases new with
  | none => rfl
  | some => exact absurd hop ho.1

theorem Inv.new_some (hpc : (s.thread t).pc = .run op new flagged here)
    (hdone : here.done = false) (hop : op.made ≠ none) : ∃ i n, new = some (i,n) := by
  have ho := (h.running hpc).2.own hdone
  cases new with
  | none => exact absurd ho.1 hop
  | some new => exact ⟨new.1,new.2,rfl⟩

theorem Inv.after_seek (hpc : (s.thread t).pc = .run op new flagged (.sought rec)) :
    Inv L (afterSeek s t op new flagged rec) := by
  obtain ⟨hret,hr⟩ := h.running hpc
  have hs : Sought L s op.key (flagged.map Prod.fst) rec := hr.rely
  cases op with
  | get => exact h.goto hpc rfl (fun _ => h.new_none hpc rfl rfl) trivial
  | insert key =>
    obtain ⟨i,n,rfl⟩ := h.new_some hpc rfl (by simp [Call.made])
    obtain ⟨-,hfresh,hallocs⟩ := hr.own rfl
    cases heq : s.nodeEqual key rec.leaf with
    | true =>
      simp only [afterSeek,Call.key,heq,if_true]
      refine h.put ⟨hret,hr.injected,trivial,?_,?_⟩ ?_
      · intro hdone
        cases hdone
      · intro _
        simp [hallocs]
      · rintro x ⟨i',n',hnew,-⟩
        cases hnew
    | false =>
      simp only [afterSeek,Call.key,heq,Bool.false_eq_true,if_false]
      exact h.prepare hpc heq
  | put key =>
    obtain ⟨i,n,rfl⟩ := h.new_some hpc rfl (by simp [Call.made])
    cases heq : s.nodeEqual key rec.leaf with
    | true =>
      simp only [afterSeek,Call.key,heq,if_true]
      refine h.goto hpc rfl ?_ ⟨hs,heq,by simp⟩
      intro hdone
      cases hdone
    | false =>
      simp only [afterSeek,Call.key,heq,Bool.false_eq_true,if_false]
      exact h.prepare hpc heq
  | remove key =>
    have hnew := h.new_none hpc rfl rfl
    cases flagged with
    | none =>
      cases heq : s.nodeEqual key rec.leaf with
      | true =>
        simp only [afterSeek,Call.key,heq,if_true]
        exact h.goto hpc rfl (fun _ => hnew) ⟨hs,heq⟩
      | false =>
        simp only [afterSeek,Call.key,heq,Bool.false_eq_true,if_false]
        exact h.goto hpc rfl (fun _ => hnew) trivial
    | some leaf =>
      obtain ⟨leaf,res⟩ := leaf
      by_cases hl : rec.leaf ≠ leaf
      · simp only [afterSeek,if_pos hl]
        exact h.goto hpc rfl (fun _ => hnew) trivial
      · simp only [afterSeek,if_neg hl]
        rw [not_not] at hl
        refine h.goto hpc rfl (fun _ => hnew) ⟨hs,.inl (hs.hunted ?_)⟩
        rw [hl]
        rfl

/-- Every step of a thread keeps the invariant, unless its `cleanup` is not exact. -/
theorem Inv.advance (hpc : (s.thread t).pc = .run op new flagged here)
    (hexact : isExact s (.tick t fails) = true) : ∃ L', Inv L' (advance s t fails op new flagged here) := by
  obtain ⟨hret,hr⟩ := h.running hpc
  have hrely := hr.rely
  have hgoto : ∀ here' : At V, here.done = false → here'.done = false →
      here'.Inv L s op.key new (flagged.map Prod.fst) →
        ∃ L', Inv L' (s.goto t (.run op new flagged here')) :=
    fun here' hdone hdone' hh => ⟨L,h.goto hpc hdone (fun hd => by rw [hdone'] at hd; cases hd) hh⟩
  cases here with
  | seek =>
    obtain ⟨m,hm,-⟩ := h.core.first
    have hptr : (s.edge nodeS .left).ptr = some m := hm
    simp only [NatarajanTree.advance,hptr]
    exact hgoto _ rfl rfl (h.core.entered hr.injected hm)
  | first => exact hgoto _ rfl rfl ⟨hrely,h.core.first_plain.2⟩
  | enter =>
    exact hgoto _ rfl rfl (hrely.1.walk h.core hr.injected hrely.2)
  | walk rec parentField currentField =>
    have hw : Walk L s op.key (flagged.map Prod.fst) rec parentField currentField := hrely
    cases hptr : currentField.ptr with
    | none =>
      simp only [NatarajanTree.advance,hptr]
      exact hgoto _ rfl rfl ⟨hw.toFound,hw.stop hptr⟩
    | some =>
      simp only [NatarajanTree.advance,hptr]
      have hnext := hw.next h.core hptr
      refine hgoto _ rfl rfl ?_
      cases htg : parentField.tg with
      | true | false =>
        rw [htg] at hnext
        exact hnext
  | sought => exact ⟨L,h.after_seek hpc⟩
  | link =>
    obtain ⟨hs,i,n,rfl,-⟩ := hrely
    simp only [NatarajanTree.advance]
    split
    next hcas =>
      simp only [Bool.and_eq_true,decide_eq_true_eq] at hcas
      exact ⟨_,h.link hpc hcas.2 (store_writes _ _ _ _ rfl rfl rfl) rfl rfl rfl⟩
    next =>
      rw [abort_goto hret]
      exact hgoto _ rfl rfl hs
  | replace rec =>
    obtain ⟨hs,heq,hnew⟩ := hrely
    obtain ⟨⟨i,n⟩,rfl⟩ := ne_none_iff_exists'.mp hnew
    have hleaf : IsLeaf s rec.leaf := ⟨(node_equal_leaf heq).1,hs.stop⟩
    simp only [NatarajanTree.advance,retirable_leaf hleaf (h.core.payload _ hs.leaf hleaf),
      Bool.not_true,Bool.false_eq_true,if_false]
    split
    next hcas =>
      simp only [Bool.and_eq_true,decide_eq_true_eq] at hcas
      exact ⟨_,h.replace hpc hcas.2 (store_writes _ _ _ _ rfl rfl rfl)
        (retire_commit_sets hret .idle) (retire_commit_thread _)⟩
    next =>
      rw [retire_abort_goto hret]
      exact hgoto _ rfl rfl trivial
  | inject =>
    simp only [NatarajanTree.advance]
    split
    next hcas =>
      simp only [Bool.and_eq_true,decide_eq_true_eq] at hcas
      exact ⟨L,h.inject hpc hcas.2 (store_goto_writes _ _ _ _ _) rfl rfl rfl⟩
    next => exact hgoto _ rfl rfl hrely.1
  | help rec =>
    have hs : Sought L s op.key (flagged.map Prod.fst) rec := hrely
    simp only [NatarajanTree.advance]
    split
    next hmarked =>
      simp only [Bool.and_eq_true,Bool.or_eq_true] at hmarked
      exact hgoto _ rfl rfl ⟨hs,hmarked.2⟩
    next => exact hgoto _ rfl rfl trivial
  | child rec =>
    obtain ⟨hs,hmarked⟩ := hrely
    simp only [NatarajanTree.advance]
    split
    next hflg =>
      obtain ⟨m,hm,-⟩ := h.core.flagged _ hs.parent _ hflg
      have hptr : (s.edge rec.parent (s.side op.key rec.parent)).ptr = some m := hm
      simp only [hptr]
      refine hgoto _ rfl rfl ⟨hs,?_,?_⟩
      · rw [other_other]
        exact hflg
      · rw [other_other]
        exact hm
    next hflg =>
      refine hgoto _ rfl rfl ⟨hs,?_⟩
      rcases hmarked with hf | ht
      · exact absurd hf hflg
      · exact h.core.tagged _ hs.parent _ ht
  | sibling rec =>
    obtain ⟨hs,hflg⟩ := hrely
    obtain ⟨m,hm,-⟩ := h.core.flagged _ hs.parent _ hflg
    have hptr : (s.edge rec.parent (s.side op.key rec.parent).other).ptr = some m := hm
    simp only [NatarajanTree.advance,hptr]
    exact hgoto _ rfl rfl ⟨hs,hflg,hm⟩
  | untagged =>
    simp only [NatarajanTree.advance]
    split
    next htg => exact hgoto _ rfl rfl ⟨hrely,htg⟩
    next htg => exact hgoto _ rfl rfl ⟨hrely,Bool.not_eq_true _ ▸ htg⟩
  | tag =>
    simp only [NatarajanTree.advance]
    split
    next hcas =>
      simp only [Bool.and_eq_true,decide_eq_true_eq] at hcas
      exact ⟨L,h.tag hpc hcas.2 (store_goto_writes _ _ _ _ _) rfl rfl rfl⟩
    next => exact hgoto _ rfl rfl hrely.1
  | tagged _ _ side => exact hgoto _ rfl rfl ⟨side,hrely.1,rfl,hrely.2⟩
  | splice =>
    obtain ⟨side,hc,-,-⟩ := hrely
    simp only [NatarajanTree.advance,hc.retirable h.core,Bool.not_true,Bool.false_eq_true,if_false]
    simp only [isExact,hpc] at hexact
    split
    next hcas =>
      rw [if_pos hcas] at hexact
      simp only [Bool.and_eq_true,isNone_iff_eq_none,decide_eq_true_eq] at hexact hcas
      exact ⟨L,h.splice hpc hcas.2 hexact.1 hexact.2 (store_writes _ _ _ _ rfl rfl rfl)
        (retire_commit_sets hret .idle) (retire_commit_thread _)⟩
    next =>
      rw [retire_abort_goto hret]
      have hdone : (afterCleanup flagged false).done = false := by cases flagged <;> rfl
      refine hgoto _ rfl hdone ?_
      cases flagged <;> trivial
  | returned =>
    refine ⟨L,h.put ⟨hret,hr.done rfl⟩ ?_⟩
    rintro x ⟨i,n,hfresh,-⟩
    cases hfresh
  | failed => exact absurd hrely id

theorem Inv.call (hpc : (s.thread t).pc = .idle) (op : Call K V) : Inv L (call s t op) := by
  obtain ⟨hret,hallocs⟩ : (s.thread t).pendingRetires = [] ∧ (s.thread t).pendingAllocs = [] := by
    have ht := h.threads t
    rw [Thread.Inv,hpc] at ht
    exact ht
  have hinjected : ∀ s' : State K V, Injected L s' none := fun _ f hf => by cases hf
  rw [NatarajanTree.call]
  cases hval : op.made with
  | none =>
    refine h.put ⟨hret,hinjected s,trivial,fun _ => ⟨hval,hallocs⟩,fun hdone => by cases hdone⟩ ?_
    rintro x ⟨i,n,hfresh,-⟩
    cases hfresh
  | some v =>
    have hold : ∀ x, x < s.made → (s.newNodes op.key v).node x = s.node x ∧
        (s.newNodes op.key v).edge x = s.edge x := by
      intro x hx
      have hx1 : x ≠ s.made + 1 := by omega
      have hx0 : x ≠ s.made := by omega
      simp [State.newNodes,hx0,hx1]
    have hout : ∀ x, s.made ≤ x → x ∉ L := fun x hx hxL => by
      have := h.core.made x hxL
      omega
    have hleaf : (s.newNodes op.key v).node (s.made + 1) = ⟨.finite,op.key,some v⟩ :=
      update_self ..
    have hedge : (s.newNodes op.key v).edge (s.made + 1) = fun _ => ⟨none,false,false⟩ :=
      update_self ..
    obtain ⟨hcore,hg⟩ := h.core.frame ((s.newNodes op.key v).put t { s.thread t with
        toPendingLists := (s.thread t).pnew (s.made + 1)
        pc := .run op (some (s.made,s.made + 1)) none .seek })
      (fun x hx => (hold x (h.core.made x hx)).1) (fun x hx => (hold x (h.core.made x hx)).2)
      (Nat.le_add_right s.made 2) rfl rfl
    refine h.thread_step hcore hg rfl ⟨hret,hinjected _,trivial,fun _ => ⟨?_,?_,?_⟩,?_⟩ ?_ ?_
    · rw [hval]
      simp
    · refine ⟨⟨hout _ le_rfl,?_⟩,⟨hout _ (Nat.le_succ _),?_⟩,(Nat.succ_ne_self _).symm,
        congrArg Node.level hleaf,congrArg Node.key hleaf,?_,congrFun hedge⟩
      · exact Nat.lt_add_of_pos_right (by omega)
      · exact Nat.lt_succ_self _
      · intro hp
        have hpayload := (congrArg Node.payload hleaf).symm.trans hp
        cases hpayload
    · simp [hallocs]
    · intro hdone
      cases hdone
    · rintro x ⟨i,n,hfresh,hx⟩
      cases hfresh
      exact .inr (by omega)
    · intro x hx hxL _
      exact ⟨(hold x hx).1,(hold x hx).2,hxL⟩

theorem Inv.step {a : Act K V} (hexact : isExact s a = true)
    (hs : step s a = some s') : ∃ L', Inv L' s' := by
  cases a with
  | call t op =>
    simp only [NatarajanTree.step] at hs
    split at hs
    next hpc =>
      cases hs
      exact ⟨L,h.call hpc op⟩
    next => cases hs
  | tick =>
    simp only [NatarajanTree.step] at hs
    split at hs
    next => cases hs
    next hpc =>
      cases hs
      exact h.advance hpc hexact

theorem Inv.mirrors : Mirrors s where
  durable := h.core.durable
  keys := by
    intro n m hn hm hkey
    exact h.core.unique ((h.core.durable n).mp hn) ((h.core.durable m).mp hm) hkey
  pending := by
    intro t i n hfresh hn
    have ht := (h.threads t).2
    cases hpc : (s.thread t).pc with
    | idle =>
      rw [hpc] at hfresh
      cases hfresh
    | run _ _ _ here =>
      rw [hpc] at hfresh ht
      cases hdone : here.done with
      | true =>
        rw [Pc.fresh,hdone] at hfresh
        cases hfresh
      | false =>
        rw [fresh_run hdone] at hfresh
        have ho := ht.own hdone
        rw [hfresh] at ho
        exact ho.2.1.leaf.1 (h.core.logged n (.inl hn))

/-- A payload is registered for a leaf that is not linked, or stays so for one that has been
unlinked. -/
theorem Inv.inexact {tmpChild : Nat} {tmpSibling : Edge}
    (hpc : (s.thread t).pc = .run op new flagged (.splice rec tmpChild tmpSibling))
    (he : s.edge rec.ancestor (s.side op.key rec.ancestor) = .plain rec.successor)
    (hbad : ¬(op.made = none ∧ rec.successor = rec.parent)) (pc : Pc K V) :
    ¬Mirrors (((s.retirePayload t tmpChild).commit t pc).store rec.ancestor
      (s.side op.key rec.ancestor) { tmpSibling with tg := false }) := by
  obtain ⟨hret,hr⟩ := h.running hpc
  obtain ⟨side,hc,hsib,htg⟩ := hr.rely
  have ho := hr.own rfl
  have hw := store_writes (s := s) ((s.retirePayload t tmpChild).commit t pc) rec.ancestor
    (s.side op.key rec.ancestor) { tmpSibling with tg := false } rfl rfl rfl
  obtain ⟨hcommitted,hretired⟩ := retire_commit_sets (x := tmpChild) hret pc
  generalize (s.retirePayload t tmpChild).commit t pc = s1 at hw hcommitted hretired
  obtain ⟨y,hy⟩ := ne_none_iff_exists'.mp (h.core.inner hc.parent hc.child side)
  have hptr : tmpSibling.ptr = some y := by rw [← hsib]; exact hy
  have hchild := h.core.closed _ hc.parent _ _ hc.child
  have hancestor := h.core.live _ hc.ancestor _ _ he
  have hsuccessor : Linked s rec.successor :=
    Reach.snoc hancestor (next_of_plain he)
  have hparent : Linked s rec.parent := Library.Path.trans hsuccessor hc.path.reach
  -- a payload that is registered and not retired, of a node that is not in the tree
  obtain ⟨z,hz,hzr,hzl⟩ : ∃ z, z ∈ s.committed ∪ (s.thread t).pendingAllocs.toFinset ∧
      z ∉ s.retired ∪ {tmpChild} ∧ ¬Linked (s1.store rec.ancestor
        (s.side op.key rec.ancestor) { tmpSibling with tg := false }) z := by
    by_cases hop : op.made = none
    · have hne : rec.successor ≠ rec.parent := fun heq => hbad ⟨hop,heq⟩
      rcases Relation.ReflTransGen.cases_head hc.path with heq | ⟨b,⟨c,hctg,-⟩,-⟩
      · exact absurd heq hne
      · have hflg := h.core.tagged _ hc.successor c hctg
        obtain ⟨f,hf,hleaf⟩ := h.core.flagged _ hc.successor _ hflg
        obtain ⟨hfc,hfr⟩ := (h.core.durable f).mpr ⟨Reach.snoc hsuccessor hf,hleaf⟩
        have hother : ∀ d x, s.next rec.parent d = some x → x ≠ f := by
          rintro d x hx rfl
          exact hne (h.core.single _ _ _ _ x hsuccessor hparent hf hx).1
        refine ⟨f,Finset.mem_union_left _ hfc,?_,?_⟩
        · rw [Finset.mem_union,Finset.mem_singleton,not_or]
          exact ⟨hfr,(hother _ _ hc.child).symm⟩
        · intro hl
          have hyp := h.core.not_above hancestor hparent he hy (by rw [hsib]; exact htg)
          exact (redirect_unlinks h.core hw he hptr hc.ancestor hflg hf (Reach.snoc hparent hy) hyp
            (hother _ _ hy) hl).2.2 rfl
    · obtain ⟨i,n,rfl⟩ := h.new_some hpc rfl hop
      obtain ⟨-,hfresh,hallocs⟩ := ho
      refine ⟨n,?_,?_,?_⟩
      · rw [hallocs]
        simp
      · rw [Finset.mem_union,Finset.mem_singleton,not_or]
        exact ⟨fun hn => hfresh.leaf.1 (h.core.logged n (.inr hn)),
          fun hn => hfresh.leaf.1 (hn ▸ hchild)⟩
      · intro hl
        refine hfresh.leaf.1 (Path.mem hl h.core.root fun a ha d b _ hb => ?_)
        by_cases hap : a = rec.ancestor ∧ d = s.side op.key rec.ancestor
        · rw [hap.1,hap.2,hw.next_self,hptr] at hb
          cases hb
          exact h.core.closed _ hc.parent _ _ hy
        · rw [hw.next_other a d hap] at hb
          exact h.core.closed a ha d b hb
  intro hm
  refine hzl ((hm.durable z).mp ⟨?_,?_⟩).1
  · show z ∈ s1.committed
    rw [hcommitted]
    exact hz
  · show z ∉ s1.retired
    rw [hretired]
    exact hzr

theorem step_inexact {a : Act K V} (hexact : isExact s a = false)
    (hs : step s a = some s') : ¬Mirrors s' := by
  cases a with
  | call => cases hexact
  | tick =>
    simp only [step] at hs
    split at hs
    next => cases hs
    next here hpc =>
      cases hs
      rw [isExact,hpc] at hexact
      cases here with
      | splice =>
        have hc := (h.running hpc).2.rely
        obtain ⟨side,hc,-,-⟩ := hc
        simp only at hexact
        split at hexact
        next hcas =>
          simp only [advance,hc.retirable h.core,Bool.not_true,Bool.false_eq_true,if_false,
            if_pos hcas]
          simp only [Bool.and_eq_true,decide_eq_true_eq] at hcas
          refine h.inexact hpc hcas.2 ?_ _
          rintro ⟨hop,hsuccessor⟩
          simp [hop,hsuccessor] at hexact
        next => cases hexact
      | _ => cases hexact

end

/-- In a run, the durable payloads mirror the tree after every step exactly if every `cleanup`
that unlinks something is exact. -/
theorem mirrors_iff_exact (memory : Nat → Node K V) {ms : List (Move (State K V) (Act K V))}
    (run : Run step (fun _ _ => True) (init memory) ms s) :
    Mirrors (init memory) ∧
      ((∀ m ∈ ms, Mirrors m.post) ↔ ∀ m ∈ ms, isExact m.pre m.act = true) := by
  have hinit := init_inv memory
  have hkeep : ∀ (s : State K V) a s', (∃ L, Inv L s) → isExact s a = true → step s a = some s' →
      ∃ L, Inv L s' := by
    rintro s a s' ⟨L,h⟩ hexact hs
    exact h.step hexact hs
  refine ⟨hinit.mirrors,?_,?_⟩
  · intro hmirrors
    induction run with
    | nil => simp
    | @snoc ms s a s' run _ next ih =>
      have hexact := ih fun m hm => hmirrors m (mem_append_left _ hm)
      obtain ⟨L,h⟩ := (run.restrict hexact).invariant (fun s => ∃ L, Inv L s) ⟨_,hinit⟩ hkeep
      intro m hmem
      rcases mem_append.mp hmem with hm | hm
      · exact hexact m hm
      · cases mem_singleton.mp hm
        by_contra hbad
        exact step_inexact h (Bool.not_eq_true _ ▸ hbad) next (hmirrors _ hmem)
  · intro hexact m hm
    obtain ⟨⟨L,h⟩,hok,hs⟩ := (run.restrict hexact).each (fun s => ∃ L, Inv L s) ⟨_,hinit⟩ hkeep m hm
    obtain ⟨L',h'⟩ := h.step hok hs
    exact h'.mirrors

def ticks (t k : Nat) : List (Act Nat Nat) := replicate k (.tick t false)

/-- Keys 1, 2 and 3, where the leaf of key 1 hangs above the other two. -/
def grown : List (Act Nat Nat) :=
  .call 0 (.insert 2 20) :: ticks 0 7 ++ .call 0 (.insert 1 10) :: ticks 0 8 ++
    .call 0 (.insert 3 30) :: ticks 0 9

/-- Two threads remove key 1; one flags its leaf, and the other unlinks it. -/
def shared : List (Act Nat Nat) :=
  grown ++ .call 1 (.remove 1) :: ticks 1 8 ++ .call 2 (.remove 1) :: ticks 2 22 ++ ticks 1 12 ++
    .call 0 (.put 2 21) :: ticks 0 9

theorem mirrors_iff_exact_shared : ∃ ms s,
    Run step (fun _ _ => True) (init fun _ => (⟨.finite,0,none⟩ : Node Nat Nat)) ms s ∧
      s.committed = {6,8,10,12} ∧ s.retired = {8,6} ∧ ∀ m ∈ ms, Mirrors m.post := by
  obtain ⟨ms,s,run,hend⟩ := Run.play step isExact
    (fun s => s.committed = {6,8,10,12} ∧ s.retired = {8,6})
    (init fun _ => (⟨.finite,0,none⟩ : Node Nat Nat)) shared (by decide +kernel)
  obtain ⟨hcommitted,hretired⟩ := of_decide_eq_true hend
  have hexact := fun m hm =>
    (run.each (fun _ => True) trivial (fun _ _ _ _ _ _ => trivial) m hm).2.1
  have run' := run.weaken fun _ _ _ => trivial
  exact ⟨ms,s,run',hcommitted,hretired,((mirrors_iff_exact _ run').2).mpr hexact⟩

/-- An `insert` of key 0 helps to unlink key 1, and its own payload is registered by that. -/
def helped : List (Act Nat Nat) :=
  .call 0 (.insert 2 20) :: ticks 0 7 ++ .call 0 (.insert 1 10) :: ticks 0 8 ++
    .call 1 (.remove 1) :: ticks 1 8 ++ .call 2 (.insert 0 5) :: ticks 2 14

/-- A `remove` of key 2 also unlinks the leaf of key 1, whose payload nobody retires. Then key 1
is inserted again. -/
def chained : List (Act Nat Nat) :=
  grown ++ .call 1 (.remove 1) :: ticks 1 12 ++ .call 2 (.remove 2) :: ticks 2 15 ++ ticks 1 8 ++
    .call 0 (.insert 1 11) :: ticks 0 8

theorem payloads_diverge :
    (∃ ms s, Run step (fun _ _ => True) (init fun _ => (⟨.finite,0,none⟩ : Node Nat Nat)) ms s ∧
      ms.map Move.act = helped ∧ (s.thread 2).pc.fresh = some (9,10) ∧ 10 ∈ s.committed ∧
      ¬Mirrors s) ∧
    ∃ ms s, Run step (fun _ _ => True) (init fun _ => (⟨.finite,0,none⟩ : Node Nat Nat)) ms s ∧
      ms.map Move.act = chained ∧ (∀ t < 3, (s.thread t).pc = .idle) ∧
      (s.node 8).key = (s.node 12).key ∧ {8,12} ⊆ s.committed \ s.retired ∧ ¬Mirrors s := by
  constructor
  · obtain ⟨s,hplay,hend⟩ : ∃ s,
        play step (init fun _ => (⟨.finite,0,none⟩ : Node Nat Nat)) helped = some s ∧
          decide ((s.thread 2).pc.fresh = some (9,10) ∧ 10 ∈ s.committed) = true :=
      map_eq_some_iff.mp (by decide +kernel)
    obtain ⟨hfresh,hcommitted⟩ := of_decide_eq_true hend
    exact ⟨_,s,Run.nil.trace hplay,trace_acts hplay,hfresh,hcommitted,
      fun h => h.pending 2 9 10 hfresh hcommitted⟩
  · obtain ⟨s,hplay,hend⟩ : ∃ s,
        play step (init fun _ => (⟨.finite,0,none⟩ : Node Nat Nat)) chained = some s ∧
          decide ((∀ t < 3, (s.thread t).pc = .idle) ∧ (s.node 8).key = (s.node 12).key ∧
            {8,12} ⊆ s.committed \ s.retired) = true :=
      map_eq_some_iff.mp (by decide +kernel)
    obtain ⟨hidle,hkey,hdurable⟩ := of_decide_eq_true hend
    refine ⟨_,s,Run.nil.trace hplay,trace_acts hplay,hidle,hkey,hdurable,fun h => ?_⟩
    have h8 := Finset.mem_sdiff.mp (hdurable (Finset.mem_insert_self 8 {12}))
    have h12 := Finset.mem_sdiff.mp
      (hdurable (Finset.mem_insert_of_mem (Finset.mem_singleton_self 12)))
    exact absurd (h.keys 8 12 h8 h12 hkey) (by omega)

end Montage.NatarajanTree
