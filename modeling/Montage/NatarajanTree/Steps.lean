import Montage.NatarajanTree.Threads
import Montage.Library.Owners

namespace Montage.NatarajanTree
open Library Library.Maps Function

variable {K V : Type} [LinearOrder K]

/-- What a call has made and not linked yet: an internal node `i` and a leaf `n`. -/
def Own (L : Set Nat) (s : State K V) (op : Call K V) (allocs : List Nat) :
    Option (Nat × Nat) → Prop
  | none => op.made = none ∧ allocs = []
  | some (i,n) => op.made ≠ none ∧ Fresh L s op.key i n ∧ allocs = [n]

/-- What a thread that runs `op` holds and relies on. -/
structure Running (L : Set Nat) (s : State K V) (allocs : List Nat) (op : Call K V)
    (new : Option (Nat × Nat)) (flagged : Option Nat) (here : At V) : Prop where
  injected : Injected L s flagged
  rely : here.Inv L s op.key new flagged
  own : here.done = false → Own L s op allocs new
  done : here.done = true → allocs = []

def Thread.Inv (L : Set Nat) (s : State K V) (th : Thread K V) : Prop :=
  th.pendingRetires = [] ∧
    match th.pc with
    | .idle => th.pendingAllocs = []
    | .run op new flagged here => Running L s th.pendingAllocs op new (flagged.map Prod.fst) here

def Pc.owns (pc : Pc K V) (x : Nat) : Prop := ∃ i n, pc.fresh = some (i,n) ∧ (x = i ∨ x = n)

/-- The tree is sound, each thread may rely on what it has read, and no new node belongs to two
threads. -/
structure Inv (L : Set Nat) (s : State K V) : Prop where
  core : Core L s
  threads : ∀ t, (s.thread t).Inv L s
  apart : ∀ t u x, (s.thread t).pc.owns x → (s.thread u).pc.owns x → t = u

variable {L L' : Set Nat} {s s' : State K V} {a f i l n m p x y t : Nat} {c d e : Side} {w : Edge}
  {key : K} {flagged : Option (Nat × Option V)} {op : Call K V} {new : Option (Nat × Nat)}
  {here here' : At V} {allocs : List Nat} {th : Thread K V} {rec : SeekRecord}

omit [LinearOrder K] in
theorem Fresh.mono (hf : Fresh L s key i n) (hmade : s.made ≤ s'.made)
    (hi : s'.node i = s.node i ∧ s'.edge i = s.edge i ∧ i ∉ L')
    (hn : s'.node n = s.node n ∧ s'.edge n = s.edge n ∧ n ∉ L') : Fresh L' s' key i n where
  internal := ⟨hi.2.2,lt_of_lt_of_le hf.internal.2 hmade⟩
  leaf := ⟨hn.2.2,lt_of_lt_of_le hf.leaf.2 hmade⟩
  ne := hf.ne
  level := by rw [hn.1]; exact hf.level
  key := by rw [hn.1]; exact hf.key
  payload := by rw [hn.1]; exact hf.payload
  edges := by rw [hn.2.1]; exact hf.edges

omit [LinearOrder K] in
theorem Own.mono (ho : Own L s op allocs new) (hmade : s.made ≤ s'.made)
    (hspare : ∀ i n, new = some (i,n) → ∀ x, x = i ∨ x = n →
      s'.node x = s.node x ∧ s'.edge x = s.edge x ∧ x ∉ L') : Own L' s' op allocs new := by
  cases new with
  | none => exact ho
  | some new =>
    obtain ⟨i,n⟩ := new
    obtain ⟨hop,hfresh,hallocs⟩ := ho
    exact ⟨hop,hfresh.mono hmade (hspare i n rfl i (.inl rfl)) (hspare i n rfl n (.inr rfl)),hallocs⟩

theorem Running.mono {flagged : Option Nat} (hr : Running L s allocs op new flagged here)
    (h : Core L s) (hg : Grows L s L' s')
    (hspare : here.done = false → ∀ i n, new = some (i,n) → ∀ x, x = i ∨ x = n →
      s'.node x = s.node x ∧ s'.edge x = s.edge x ∧ x ∉ L') :
    Running L' s' allocs op new flagged here where
  injected := hg.injected flagged hr.injected
  rely := by
    refine hr.rely.mono hg h hr.injected fun hdone i n hnew => ?_
    obtain ⟨hnode,hedge,-⟩ := hspare hdone i n hnew i (.inl rfl)
    exact ⟨hnode,hedge⟩
  own := fun hdone => (hr.own hdone).mono hg.made (hspare hdone)
  done := hr.done

section
omit [LinearOrder K]

theorem Own.outside (ho : Own L s op allocs new) (hnew : new = some (i,n)) (hx : x = i ∨ x = n) :
    x ∉ L ∧ x < s.made := by
  rw [hnew] at ho
  obtain ⟨-,hf,-⟩ := ho
  rcases hx with rfl | rfl
  · exact hf.internal
  · exact hf.leaf

theorem fresh_run (hdone : here.done = false) : (Pc.run op new flagged here).fresh = new := by
  rw [Pc.fresh,hdone]
  rfl

theorem owns_run {flagged' : Option (Nat × Option V)} (hdone : here.done = false)
    (hx : (Pc.run op new flagged' here').owns x) :
    (Pc.run op new flagged here).owns x := by
  obtain ⟨i,n,hfresh,hx⟩ := hx
  refine ⟨i,n,?_,hx⟩
  cases hdone' : here'.done with
  | true =>
    rw [Pc.fresh,hdone'] at hfresh
    cases hfresh
  | false =>
    rw [fresh_run hdone'] at hfresh
    rw [fresh_run hdone]
    exact hfresh

end

/-- A step of one thread keeps what the others rely on if it grows the tree and leaves their new
nodes alone. -/
theorem Inv.thread_step (h : Inv L s) (hcore : Core L' s') (hg : Grows L s L' s')
    (hthread : s'.thread = update s.thread t th) (hth : th.Inv L' s')
    (hown : ∀ x, th.pc.owns x → (s.thread t).pc.owns x ∨ s.made ≤ x)
    (hspare : ∀ x, x < s.made → x ∉ L → ¬(s.thread t).pc.owns x →
      s'.node x = s.node x ∧ s'.edge x = s.edge x ∧ x ∉ L') : Inv L' s' := by
  have hfresh : ∀ u x, (s.thread u).pc.owns x → x ∉ L ∧ x < s.made := by
    rintro u x ⟨i,n,hnew,hx⟩
    have hu := (h.threads u).2
    cases hpc : (s.thread u).pc with
    | idle =>
      rw [hpc] at hnew
      cases hnew
    | run _ _ _ here =>
      rw [hpc] at hnew hu
      cases hdone : here.done with
      | true =>
        rw [Pc.fresh,hdone] at hnew
        cases hnew
      | false =>
        rw [fresh_run hdone] at hnew
        exact (hu.own hdone).outside hnew hx
  refine ⟨hcore,?_,?_⟩
  · rw [hthread]
    refine update_each (P := fun _ th => th.Inv L s) h.threads hth fun u hu hP => ⟨hP.1,?_⟩
    have hPu := hP.2
    have howns := hfresh u
    have happart := fun x hx hx' => hu (h.apart u t x hx hx')
    cases hpc : (s.thread u).pc with
    | idle =>
      rw [hpc] at hPu
      exact hPu
    | run op new flagged here =>
      rw [hpc] at hPu howns happart
      refine Running.mono hPu h.core hg fun hdone i n hnew x hx => ?_
      have hx' : (Pc.run op new flagged here).owns x := ⟨i,n,(fresh_run hdone).trans hnew,hx⟩
      exact hspare x (howns x hx').2 (howns x hx').1 (happart x hx')
  · intro u w x hu hw
    rw [hthread] at hu hw
    have hcross : ∀ v, v ≠ t → (s.thread v).pc.owns x → ¬th.pc.owns x := by
      intro v hv hvx htx
      rcases hown x htx with hx | hx
      · exact hv (h.apart v t x hvx hx)
      · exact absurd (hfresh v x hvx).2 (not_lt.mpr hx)
    by_cases hut : u = t
    · by_cases hwt : w = t
      · rw [hut,hwt]
      · rw [hut,update_self] at hu
        rw [update_of_ne hwt] at hw
        exact absurd hu (hcross w hwt hw)
    · rw [update_of_ne hut] at hu
      by_cases hwt : w = t
      · rw [hwt,update_self] at hw
        exact absurd hw (hcross u hut hu)
      · rw [update_of_ne hwt] at hw
        exact h.apart u w x hu hw

theorem Inv.running (h : Inv L s) (hpc : (s.thread t).pc = .run op new flagged here) :
    (s.thread t).pendingRetires = [] ∧
      Running L s (s.thread t).pendingAllocs op new (flagged.map Prod.fst) here := by
  have ht := h.threads t
  rw [Thread.Inv,hpc] at ht
  exact ht

theorem Inv.put (h : Inv L s) (hth : th.Inv L s)
    (hown : ∀ x, th.pc.owns x → (s.thread t).pc.owns x) : Inv L (s.put t th) := by
  obtain ⟨hcore,hg⟩ := h.core.frame (s.put t th) (fun _ _ => rfl) (fun _ _ => rfl)
    le_rfl rfl rfl
  refine h.thread_step hcore hg rfl ?_ (fun x hx => .inl (hown x hx)) fun x _ hx _ => ⟨rfl,rfl,hx⟩
  refine ⟨hth.1,?_⟩
  have hth2 := hth.2
  cases hpc : th.pc with
  | idle =>
    rw [hpc] at hth2
    exact hth2
  | run =>
    rw [hpc] at hth2
    exact Running.mono hth2 h.core hg fun hdone i n hnew x hx =>
      ⟨rfl,rfl,((hth2.own hdone).outside hnew hx).1⟩

theorem Inv.goto (h : Inv L s) (hpc : (s.thread t).pc = .run op new flagged here)
    (hdone : here.done = false) (hnew : here'.done = true → new = none)
    (hh : here'.Inv L s op.key new (flagged.map Prod.fst)) :
    Inv L (s.goto t (.run op new flagged here')) := by
  obtain ⟨hretires,hr⟩ := h.running hpc
  refine h.put ⟨hretires,hr.injected,hh,fun _ => hr.own hdone,?_⟩ ?_
  · intro hdone'
    have ho := hr.own hdone
    rw [hnew hdone'] at ho
    exact ho.2
  · intro x hx
    rw [hpc]
    exact owns_run hdone hx

section Seek
variable {flagged : Option Nat}

/-- Following the edge on the side of the key, a seek stays among the nodes on its way. -/
theorem Core.read (h : Core L s) (hn : n ∈ L) (hg : Guided s key flagged n) :
    (∀ m, s.next n (s.side key n) = some m → m ∈ L ∧ Guided s key flagged m ∧
      (flagged = some m → (s.edge n (s.side key n)).flg = true)) ∧
    (s.next n (s.side key n) = none → ∀ c, s.next n c = none) := by
  constructor
  · intro m hm
    obtain ⟨hm',hflg⟩ := hg.next hm
    exact ⟨h.closed n hn _ m hm,hm',hflg⟩
  · intro hnone
    rcases h.shape n hn with hleaf | hinner
    · intro c
      rw [State.next,hleaf c]
    · exact absurd hnone (hinner _)

theorem Core.entered (h : Core L s) (hi : Injected L s flagged)
    (hm : s.next nodeS .left = some m) : Entered L s key flagged m := by
  have hs := h.linked_mem h.linked_s
  obtain ⟨m',hm',hlevel⟩ := h.first
  rw [hm] at hm'
  cases hm'
  have hside : s.side key nodeS = .left := side_inf h.rootLevel.2
  exact ⟨h.closed _ hs _ m hm,hlevel,(((h.on_s key).guided hi).next (by rw [hside]; exact hm)).1⟩

theorem Entered.walk (he : Entered L s key flagged n) (h : Core L s) (hi : Injected L s flagged)
    (htg : w.tg = false) :
    Walk L s key flagged ⟨nodeR,nodeS,nodeS,n⟩ w (s.edge n .left) := by
  have hs := h.linked_mem h.linked_s
  have hside : s.side key n = .left := side_inf he.level
  obtain ⟨hcurrent,hstop⟩ := h.read he.mem he.guided
  rw [hside] at hcurrent hstop
  refine ⟨⟨h.root,hs,hs,he.mem,(h.on_s key).guided hi,Library.Path.refl _,?_⟩,he.guided,?_,?_,?_,hstop⟩
  · intro hf
    exact absurd (hi n hf).2.1.1 he.level
  · intro ht
    rw [htg] at ht
    cases ht
  · intro _
    rw [hside]
  · rw [hside]
    exact hcurrent

/-- One more level of a seek: the last untagged edge becomes that of the ancestor. -/
theorem Walk.next {parentField currentField : Edge}
    (hw : Walk L s key flagged rec parentField currentField) (h : Core L s)
    (hn : currentField.ptr = some n) :
    Walk L s key flagged
      { (if parentField.tg then rec
          else { rec with ancestor := rec.parent, successor := rec.leaf }) with
        parent := rec.leaf, leaf := n }
      currentField (s.edge n (s.side key n)) := by
  obtain ⟨hnL,hguided,hflg⟩ := hw.current n hn
  obtain ⟨hcurrent,hstop⟩ := h.read hnL hguided
  have htag : currentField.tg = true → (s.edge rec.leaf (s.side key rec.leaf)).tg = true ∧
      s.next rec.leaf (s.side key rec.leaf) = some n := by
    intro ht
    rw [State.next,hw.currentTag ht]
    exact ⟨ht,hn⟩
  cases hpt : parentField.tg with
  | true =>
    obtain ⟨ht,hnext⟩ := hw.parentTag hpt
    exact ⟨⟨hw.ancestor,hw.successor,hw.leaf,hnL,hw.leafGuided,hw.path.snoc ht hnext,hflg⟩,hguided,
      htag,fun _ => rfl,hcurrent,hstop⟩
  | false =>
    exact ⟨⟨hw.parent,hw.leaf,hw.leaf,hnL,hw.leafGuided,Library.Path.refl _,hflg⟩,hguided,htag,
      fun _ => rfl,hcurrent,hstop⟩

end Seek

section Commits

section
omit [LinearOrder K]

theorem store_writes (s1 : State K V) (p : Nat) (c : Side) (w : Edge) (hnode : s1.node = s.node)
    (hedge : s1.edge = s.edge) (hmade : s1.made = s.made) : Writes s (s1.store p c w) p c w where
  node := hnode
  made := hmade
  self := by simp [State.store]
  other := by
    intro n d hne
    by_cases hn : n = p
    · have hd : d ≠ c := fun he => hne ⟨hn,he⟩
      subst hn
      simp [State.store,hd,hedge]
    · simp [State.store,hn,hedge]

theorem store_goto_writes (t p : Nat) (c : Side) (w : Edge) (pc : Pc K V) :
    Writes s ((s.store p c w).goto t pc) p c w := by
  have hstore := store_writes s p c w rfl rfl rfl
  exact ⟨hstore.node,hstore.made,hstore.self,hstore.other⟩

theorem abort_goto (hret : (s.thread t).pendingRetires = []) (pc : Pc K V) :
    s.abort t pc = s.goto t pc := by
  have habort : (s.thread t).abortOp = (s.thread t).toPendingLists := by
    rw [Recoverable.PendingLists.abortOp,← hret]
  rw [State.abort,habort]
  rfl

theorem retire_abort_goto (hret : (s.thread t).pendingRetires = []) (pc : Pc K V) :
    (s.retirePayload t x).abort t pc = s.goto t pc := by
  rw [← abort_goto hret]
  simp [State.abort,State.retirePayload,State.put]

theorem retire_commit_thread (pc : Pc K V) :
    ((s.retirePayload t x).commit t pc).thread = update s.thread t ⟨.empty,pc⟩ := by
  simp [State.commit,State.retirePayload,State.put]

theorem retire_commit_sets (hret : (s.thread t).pendingRetires = []) (pc : Pc K V) :
    ((s.retirePayload t x).commit t pc).committed =
        s.committed ∪ (s.thread t).pendingAllocs.toFinset ∧
      ((s.retirePayload t x).commit t pc).retired = s.retired ∪ {x} := by
  simp [State.commit,State.retirePayload,State.put,hret]

end

theorem Inv.plain_parent (hs : Sought L s key (flagged.map Prod.fst) rec)
    (h : Core L s) (he : s.edge rec.parent (s.side key rec.parent) = .plain rec.leaf) :
    On s key rec.parent := by
  exact hs.guided.1 _ (.refl _) (h.live _ hs.parent _ _ he) ⟨_,_,rfl,next_of_plain he⟩

theorem node_equal_leaf (heq : s.nodeEqual key l = true) :
    (s.node l).level = .finite ∧ (s.node l).key = key := by
  rw [State.nodeEqual] at heq
  split at heq
  next hlevel => exact ⟨hlevel,(of_decide_eq_true heq).symm⟩
  next => cases heq

omit [LinearOrder K] in
theorem retirable_leaf (hleaf : IsLeaf s l) (hpayload : (s.node l).payload ≠ none) :
    s.retirable l = true := by
  rw [State.retirable,hleaf.1]
  cases hp : (s.node l).payload with
  | none => exact absurd hp hpayload
  | some => rfl

/-- A thread writes an edge of a node that has been linked. -/
theorem Inv.write {flagged' : Option (Nat × Option V)} (h : Inv L s)
    (hpc : (s.thread t).pc = .run op new flagged here) (hdone : here.done = false)
    (hw : Writes s s' p c w) (hp : p ∈ L) (hcore : Core L' s') (hg : Grows L s L' s')
    (hthread : s'.thread = update s.thread t th) (hpc' : th.pc = .run op new flagged' here')
    (hth : th.Inv L' s') (hnew : ∀ x, x ∉ L → ¬(Pc.run op new flagged here).owns x → x ∉ L') :
    Inv L' s' := by
  refine h.thread_step hcore hg hthread hth ?_ ?_
  · intro x hx
    rw [hpc'] at hx
    rw [hpc]
    exact .inl (owns_run hdone hx)
  · intro x _ hx hown
    rw [hpc] at hown
    refine ⟨congrFun hw.node x,?_,hnew x hx hown⟩
    funext d
    exact hw.other x d fun hxp => hx (hxp.1 ▸ hp)

/-- The exchange that links a new internal node with both leaves. -/
theorem Inv.link {res : Result V} (h : Inv L s)
    (hpc : (s.thread t).pc = .run op (some (i,n)) flagged (.link rec))
    (he : s.edge rec.parent (s.side op.key rec.parent) = .plain rec.leaf)
    (hw : Writes s s' rec.parent (s.side op.key rec.parent) (.plain i))
    (hcommitted : s'.committed = s.committed ∪ (s.thread t).pendingAllocs.toFinset)
    (hretired : s'.retired = s.retired ∪ (s.thread t).pendingRetires.toFinset)
    (hthread : s'.thread = update s.thread t ⟨.empty,.run op (some (i,n)) flagged (.returned res)⟩) :
    Inv (insert i (insert n L)) s' := by
  obtain ⟨hret,hr⟩ := h.running hpc
  obtain ⟨hs,i',n',hnew,hready⟩ := hr.rely
  cases hnew
  obtain ⟨-,hfresh,hallocs⟩ := hr.own rfl
  have hon := Inv.plain_parent hs h.core he
  rw [hallocs] at hcommitted
  rw [hret,List.toFinset_nil,Finset.union_empty] at hretired
  have hcore := Core.link h.core hw he hs.parent hs.stop hfresh hready hon rfl hcommitted hretired
  have hlinked := link_linked h.core hw he hs.parent hs.stop hfresh hready
  have hparent := h.core.live _ hs.parent _ _ he
  have hg : Grows L s (insert i (insert n L)) s' := by
    refine h.core.redirect_grows hw hs.parent he
      (fun m hm => Set.mem_insert_of_mem _ (Set.mem_insert_of_mem _ hm))
      ((hlinked _).mpr (.inl hparent)) (redirect_is_leaf hw he rfl) ?_ ?_ ?_
    · intro m hm hm'
      rcases (hlinked m).mp hm' with hm' | rfl | rfl
      · exact hm'
      · exact absurd hm hfresh.internal.1
      · exact absurd hm hfresh.leaf.1
    · intro k m hm _ hinner
      rcases leaf_on hw he rfl hs.stop hm with hm' | ⟨rfl,-⟩
      · exact hm'
      · -- the leaf has no pointers
        obtain ⟨d,b,-,hb⟩ := hinner
        have hne : ¬(rec.leaf = rec.parent ∧ d = s.side op.key rec.parent) := by
          rintro ⟨hl,-⟩
          have hnone := hs.stop (s.side op.key rec.parent)
          rw [State.next,hl,he] at hnone
          cases hnone
        rw [hw.next_other _ _ hne,hs.stop d] at hb
        cases hb
    · intro f hf hflg m d hm hmf
      rcases link_edges h.core hw he hs.parent hs.stop hfresh hready hm hmf with
        ⟨-,-,rfl⟩ | ⟨-,-,rfl⟩ | ⟨-,-,rfl⟩ | ⟨hm,hmf',-,hfl⟩
      · exact absurd hf hfresh.internal.1
      · exact absurd hf hfresh.leaf.1
      · have hplain := hflg _ _ hparent (next_of_plain he)
        rw [he] at hplain
        cases hplain
      · have hne : ¬(m = rec.parent ∧ d = s.side op.key rec.parent) := by
          rintro ⟨rfl,rfl⟩
          rw [State.next,he] at hmf'
          cases hmf'
          exact hfl rfl
        rw [hw.other m d hne]
        exact hflg m d hm hmf'
  refine h.write hpc rfl hw hs.parent hcore hg hthread rfl
    ⟨rfl,hg.injected _ hr.injected,trivial,(fun hdone => by cases hdone),fun _ => rfl⟩ ?_
  intro x hx hown
  have hxi : x ≠ i := fun hxi => hown ⟨i,n,rfl,.inl hxi⟩
  have hxn : x ≠ n := fun hxn => hown ⟨i,n,rfl,.inr hxn⟩
  simp [hxi,hxn,hx]

/-- The exchange that puts a new leaf in the place of the one with the same key. -/
theorem Inv.replace {res : Result V} (h : Inv L s)
    (hpc : (s.thread t).pc = .run op (some (i,n)) flagged (.replace rec))
    (he : s.edge rec.parent (s.side op.key rec.parent) = .plain rec.leaf)
    (hw : Writes s s' rec.parent (s.side op.key rec.parent) (.plain n))
    (hsets : s'.committed = s.committed ∪ (s.thread t).pendingAllocs.toFinset ∧
      s'.retired = s.retired ∪ {rec.leaf})
    (hthread : s'.thread = update s.thread t ⟨.empty,.run op (some (i,n)) flagged (.returned res)⟩) :
    Inv (insert n L) s' := by
  obtain ⟨-,hr⟩ := h.running hpc
  obtain ⟨hs,heq,-⟩ := hr.rely
  obtain ⟨hlevel,hkey⟩ := node_equal_leaf heq
  obtain ⟨-,hfresh,hallocs⟩ := hr.own rfl
  obtain ⟨hcommitted,hretired⟩ := hsets
  rw [hallocs] at hcommitted
  have hl : IsLeaf s rec.leaf := ⟨hlevel,hs.stop⟩
  have hcore := Core.replace h.core hw he hs.parent hl hfresh hkey hcommitted hretired
  have hlinked := replace_linked h.core hw he hs.parent hl hfresh
  have hparent := h.core.live _ hs.parent _ _ he
  have hparent' := leaf_parent hw he rfl hs.stop hparent
  have hg : Grows L s (insert n L) s' := by
    refine h.core.redirect_grows hw hs.parent he (Set.subset_insert n L) hparent'
      (redirect_is_leaf hw he rfl) ?_ ?_ ?_
    · intro m hm hm'
      rcases (hlinked m).mp hm' with ⟨hm',-⟩ | rfl
      · exact hm'
      · exact absurd hm hfresh.leaf.1
    · intro k m hm hm' _
      rcases leaf_on hw he rfl hs.stop hm with hon | ⟨rfl,-⟩
      · exact hon
      · rcases (hlinked _).mp hm' with ⟨-,hne⟩ | hln
        · exact absurd rfl hne
        · exact absurd hs.leaf (hln ▸ hfresh.leaf.1)
    · intro f hf hflg m d hm hmf
      by_cases hmp : m = rec.parent ∧ d = s.side op.key rec.parent
      · rw [hmp.1,hmp.2,hw.next_self] at hmf
        cases hmf
        exact absurd hf hfresh.leaf.1
      · rw [hw.next_other m d hmp] at hmf
        rw [hw.other m d hmp]
        rcases (hlinked m).mp hm with ⟨hm,-⟩ | rfl
        · exact hflg m d hm hmf
        · rw [State.next,hfresh.edges d] at hmf
          cases hmf
  refine h.write hpc rfl hw hs.parent hcore hg hthread rfl
    ⟨rfl,hg.injected _ hr.injected,trivial,(fun hdone => by cases hdone),fun _ => rfl⟩ ?_
  intro x hx hown
  have hxn : x ≠ n := fun hxn => hown ⟨i,n,rfl,.inr hxn⟩
  simp [hxn,hx]

theorem Running.own_write {flagged' : Option Nat} (hr : Running L s allocs op new flagged' here)
    (hdone : here.done = false)
    (hw : Writes s s' p c w) (hp : p ∈ L) : Own L s' op allocs new := by
  refine (hr.own hdone).mono hw.made.ge fun i n hnew x hx => ?_
  have hxL := ((hr.own hdone).outside hnew hx).1
  refine ⟨congrFun hw.node x,?_,hxL⟩
  funext d
  exact hw.other x d fun hxp => hxL (hxp.1 ▸ hp)

/-- The exchange that flags the edge to the leaf: the key is going to be removed. -/
theorem Inv.inject {v : Option V} (h : Inv L s)
    (hpc : (s.thread t).pc = .run op new flagged (.inject rec))
    (he : s.edge rec.parent (s.side op.key rec.parent) = .plain rec.leaf)
    (hw : Writes s s' rec.parent (s.side op.key rec.parent) ⟨some rec.leaf,true,false⟩)
    (hcommitted : s'.committed = s.committed) (hretired : s'.retired = s.retired)
    (hthread : s'.thread = update s.thread t
      { s.thread t with pc := .run op new (some (rec.leaf,v)) (.child rec) }) : Inv L s' := by
  obtain ⟨hret,hr⟩ := h.running hpc
  obtain ⟨hs,heq⟩ := hr.rely
  obtain ⟨hlevel,-⟩ := node_equal_leaf heq
  have hnext := next_of_plain he
  have hparent := h.core.live _ hs.parent _ _ he
  have hg : Grows L s L s' := hw.mark_grows hnext.symm (fun _ => rfl) (by rw [he]; rfl)
  have hcore : Core L s' := h.core.mark hw hs.parent hnext.symm (by rw [hnext]; simp)
    (fun _ => rfl) (fun ht => by rw [he] at ht; cases ht) (fun _ => ⟨_,hnext,hlevel,hs.stop⟩)
    (fun ht => by cases ht) hcommitted hretired
  have hsame : ∀ k, s'.side k = s.side k :=
    fun k => funext fun m => side_congr (congrFun hw.node m)
  have hself : (s'.edge rec.parent (s'.side op.key rec.parent)).flg = true := by
    rw [hsame,hw.self]
  have hnext' : s'.next rec.parent (s'.side op.key rec.parent) = some rec.leaf := by
    rw [hsame,hw.next_self]
  have hinjected : Injected L s' (some rec.leaf) := by
    intro f hf
    cases hf
    refine ⟨hs.leaf,?_,?_⟩
    · exact ⟨by rw [hw.node]; exact hlevel,hg.ends _ hs.leaf hs.stop⟩
    · intro m d hm hmf
      have hplinked : Linked s' rec.parent := by
        rw [Linked,hw.next_eq hnext.symm]
        exact hparent
      obtain ⟨rfl,rfl⟩ := hcore.single m rec.parent d _ _ hm hplinked hmf hnext'
      exact hself
  have hs' := hg.sought h.core hr.injected hs
  have hguided : Guided s' op.key (some rec.leaf) rec.parent := by
    refine ⟨hs'.guided.1,?_⟩
    intro m f hm hf hmf
    cases hf
    -- the path ends in the leaf
    rcases Relation.ReflTransGen.cases_head hm with rfl | ⟨b,⟨d,hd,hb⟩,hrest⟩
    · exact hself
    · rw [hd,hnext'] at hb
      cases hb
      rw [Path.stop hrest hs'.stop,hs'.stop] at hmf
      cases hmf
  exact h.write hpc rfl hw hs.parent hcore hg hthread rfl ⟨hret,hinjected,⟨⟨⟨hs'.ancestor,
    hs'.successor,hs'.parent,hs'.leaf,hguided,hs'.path,fun _ => hself⟩,hs'.stop⟩,.inl hself⟩,
    fun _ => hr.own_write rfl hw hs.parent,fun hdone => by cases hdone⟩ fun x hx _ => hx

/-- The sibling edge is tagged, and will not change any more. -/
theorem Inv.tag {tmpChild : Nat} {side : Side} {field : Edge} (h : Inv L s)
    (hpc : (s.thread t).pc = .run op new flagged (.tag rec tmpChild side field))
    (he : s.edge rec.parent side = field)
    (hw : Writes s s' rec.parent side { field with tg := true })
    (hcommitted : s'.committed = s.committed) (hretired : s'.retired = s.retired)
    (hthread : s'.thread = update s.thread t
      { s.thread t with pc := .run op new flagged (.tagged rec tmpChild side) }) : Inv L s' := by
  obtain ⟨hret,hr⟩ := h.running hpc
  obtain ⟨hc,htg⟩ := hr.rely
  have hinner : s.next rec.parent side ≠ none := h.core.inner hc.parent hc.child side
  have hflg : (s.edge rec.parent side).flg = true → field.flg = true := by
    rw [he]
    exact id
  have hleaf : field.flg = true → ∃ m, s.next rec.parent side = some m ∧ IsLeaf s m := by
    rw [← he]
    exact h.core.flagged _ hc.parent side
  have hptr : field.ptr = s.next rec.parent side := by rw [State.next,he]
  have hg := hw.mark_grows (L := L) hptr hflg (by rw [he]; exact htg)
  have hcore := h.core.mark hw hc.parent hptr hinner hflg (fun _ => rfl) hleaf (fun _ => hc.flg)
    hcommitted hretired
  have hc' := hg.cleaning h.core hr.injected hc
  exact h.write hpc rfl hw hc.parent hcore hg hthread rfl ⟨hret,hg.injected _ hr.injected,
    ⟨hc',by rw [hw.self]⟩,fun _ => hr.own_write rfl hw hc.parent,fun hdone => by cases hdone⟩
    fun x hx _ => hx

/-- The exchange that takes the flagged leaf and its parent out of the tree. -/
theorem Inv.splice {tmpChild : Nat} {tmpSibling : Edge} (h : Inv L s)
    (hpc : (s.thread t).pc = .run op new flagged (.splice rec tmpChild tmpSibling))
    (he : s.edge rec.ancestor (s.side op.key rec.ancestor) = .plain rec.successor)
    (hop : op.made = none) (hsuccessor : rec.successor = rec.parent)
    (hw : Writes s s' rec.ancestor (s.side op.key rec.ancestor) { tmpSibling with tg := false })
    (hsets : s'.committed = s.committed ∪ (s.thread t).pendingAllocs.toFinset ∧
      s'.retired = s.retired ∪ {tmpChild})
    (hthread : s'.thread = update s.thread t
      ⟨.empty,.run op new flagged (afterCleanup flagged true)⟩) : Inv L s' := by
  obtain ⟨-,hr⟩ := h.running hpc
  obtain ⟨side,hc,hsib,htg⟩ := hr.rely
  have ho := hr.own rfl
  obtain ⟨rfl,hallocs⟩ : new = none ∧ (s.thread t).pendingAllocs = [] := by
    cases new with
    | none => exact ⟨rfl,ho.2⟩
    | some => exact absurd hop ho.1
  rw [hsuccessor] at he
  obtain ⟨hcommitted,hretired⟩ := hsets
  rw [hallocs,List.toFinset_nil,Finset.union_empty] at hcommitted
  obtain ⟨y,hy⟩ := Option.ne_none_iff_exists'.mp (h.core.inner hc.parent hc.child side)
  have hptr : tmpSibling.ptr = some y := by rw [← hsib]; exact hy
  have htg' : (s.edge rec.parent side.other.other).tg = true := by
    rw [other_other,hsib]
    exact htg
  have hy' : s.next rec.parent side.other.other = some y := by
    rw [other_other]
    exact hy
  have hsplice := splice_linked h.core hw he hptr hc.ancestor hc.flg hc.child htg' hy'
  have hcore : Core L s' := Core.splice h.core hw he hptr hc.ancestor hc.flg hc.child htg' hy' rfl
    (by rw [other_other,hsib]) hcommitted hretired
  have hparent : Linked s rec.parent :=
    Reach.snoc (h.core.live _ hc.ancestor _ _ he) (next_of_plain he)
  have hancestor := splice_ancestor h.core hw he hptr hc.ancestor hc.flg hc.child htg' hy'
  have hg : Grows L s L s' := by
    refine h.core.redirect_grows hw hc.ancestor he (Set.Subset.refl L) hancestor
      (redirect_is_leaf hw he hptr) (fun m _ hm => ((hsplice m).mp hm).1)
      (fun k m hm hm' _ =>
        splice_on h.core hw he hptr hc.ancestor hc.flg hc.child htg' hy' hm hm') ?_
    intro f _ hflg m d hm hmf
    by_cases hmp : m = rec.ancestor ∧ d = s.side op.key rec.ancestor
    · obtain ⟨rfl,rfl⟩ := hmp
      rw [hw.next_self] at hmf
      rw [hw.self]
      have hflg' := hflg rec.parent side hparent (by rw [State.next,hsib]; exact hmf)
      rw [hsib] at hflg'
      exact hflg'
    · rw [hw.next_other m d hmp] at hmf
      rw [hw.other m d hmp]
      exact hflg m d ((hsplice m).mp hm).1 hmf
  refine h.write hpc rfl hw hc.ancestor hcore hg hthread rfl
    ⟨rfl,hg.injected _ hr.injected,?_,fun _ => ⟨hop,rfl⟩,fun _ => rfl⟩ fun x hx _ => hx
  cases flagged <;> trivial

end Commits

end Montage.NatarajanTree
