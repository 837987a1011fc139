import Montage.SSHashTable.Calls

namespace Montage.SSHashTable
open Library List

variable {K V : Type} [DecidableEq K] [Inhabited K]

/-- The table when a call opens its bucket: `insert` has made its node before. -/
def Call.start (hash : K → BitVec 64) (s : State K V) : Call K V → State K V
  | .insert key val => (s.newNode ⟨soRegularkey (hash key),some (key,val)⟩).1
  | .get _ | .remove _ => s

/-- One list, in the order of the split-order keys, from bucket 0 through all the nodes that a
bucket leads to. -/
structure GlobalList (s : State K V) (l : List Addr) : Prop where
  list : Lists s (.bucket 0) l
  sorted : l.Pairwise fun a b => (s.node a).soK ≤ (s.node b).soK
  all : ∀ j l', Lists s (.bucket j) l' → ∀ a ∈ l', a ∈ l

/-- If the call finds its bucket null, `initialize_bucket` makes the bucket point to its dummy,
which lies in the global list. -/
def Initializes (hash : K → BitVec 64) (s : State K V) (call : Call K V) : Prop :=
  let bucket := index hash s call.key
  ((call.start hash s).cell (.bucket bucket)).ptr = none →
    ∃ s' a l, initializeBucket (bucket + 1) (call.start hash s) bucket = .ok s' ∧
      s'.cell (.bucket bucket) = ⟨some a,false⟩ ∧ s'.node a = ⟨soDummykey bucket,none⟩ ∧
      GlobalList s' l ∧ a ∈ l

structure SplitOrdered (hash : K → BitVec 64) (k : Nat) (ms : List (Move (State K V) (Call K V))) :
    Prop where
  range : ∀ m ∈ ms, index hash m.pre m.act.key < 2 ^ k
  initialized : ∀ m ∈ ms, Initializes hash m.pre m.act
  map : ms.map (fun m => m.post.last) = (answers (fun _ => none) (ms.map Move.act)).map some

variable {hash : K → BitVec 64} {k : Nat} {s s' t : State K V} {ls : Nat → List Addr}
  {m : K → Option V} {call : Call K V} {node : Addr → Node K V}
  {ms : List (Move (State K V) (Call K V))}

omit [DecidableEq K] [Inhabited K] in
theorem init_inv (hk : k ≤ 30) (node : Addr → Node K V) :
    Inv hash k (init k node) (fun _ => []) (fun _ => none) where
  table := by
    refine ⟨fun i => ⟨⟨.cons _ .nil,fun _ _ => rfl⟩,?_,.nil,?_,?_⟩,?_⟩ <;> simp
  map := by
    intro key val
    simp
  size := ⟨0,rfl⟩
  bound := Nat.pow_le_pow_right (by omega) hk
  count := by simp [init]

theorem step_in_range (hi : Inv hash k s ls m) (hlt : index hash s call.key < 2 ^ k)
    (h : step hash (2 ^ k) s call = some s') :
    ∃ ls', Inv hash k s' ls' (Function.update m call.key (call.effect (m call.key)).1) ∧
      s'.last = some (call.effect (m call.key)).2 ∧
      (index hash s call.key = 0 → ∀ j, j ≠ 0 → ls' j = ls j) := by
  obtain ⟨s1,ls',hok,hi',hothers⟩ := perform_ok hi hlt
  rw [step] at h
  split at h
  next => cases h
  next =>
    rw [hok] at h
    cases h
    exact ⟨ls',⟨hi'.table.congr rfl rfl rfl,hi'.map.congr rfl,hi'.size,hi'.bound,hi'.count⟩,rfl,
      hothers⟩

omit [Inhabited K] in
theorem answers_append (m : K → Option V) (calls : List (Call K V)) (call : Call K V) :
    answers m (calls ++ [call]) =
      answers m calls ++ [(call.effect (outcome m calls call.key)).2] := by
  induction calls generalizing m with
  | nil => rfl
  | cons _ _ ih => exact congrArg _ (ih _)

omit [Inhabited K] in
theorem outcome_append (m : K → Option V) (calls : List (Call K V)) (call : Call K V) :
    outcome m (calls ++ [call]) = Function.update (outcome m calls) call.key
      (call.effect (outcome m calls call.key)).1 := by
  rw [outcome,foldl_append]
  rfl

theorem run_map (hk : k ≤ 30)
    (run : Run (step hash (2 ^ k)) (fun s call => index hash s call.key < 2 ^ k) (init k node) ms t) :
    (∃ ls, Inv hash k t ls (outcome (fun _ => none) (ms.map Move.act))) ∧
      ms.map (fun m => m.post.last) = (answers (fun _ => none) (ms.map Move.act)).map some := by
  induction run with
  | nil => exact ⟨⟨_,init_inv hk node⟩,rfl⟩
  | snoc _ hlt next ih =>
    obtain ⟨⟨ls,hi⟩,hanswers⟩ := ih
    obtain ⟨ls',hi',hlast,-⟩ := step_in_range hi hlt next
    refine ⟨⟨ls',?_⟩,?_⟩
    · rw [map_append,map_singleton,outcome_append]
      exact hi'
    · rw [map_append,hanswers,map_append,map_singleton,map_singleton,
        answers_append,map_append,map_singleton,hlast]

theorem run_zero (hk : k ≤ 30)
    (run : Run (step hash (2 ^ k)) (fun s call => index hash s call.key = 0) (init k node) ms t) :
    ∃ ls m, Inv hash k t ls m ∧ ∀ j, j ≠ 0 → ls j = [] := by
  refine run.invariant (fun s => ∃ ls m, Inv hash k s ls m ∧ ∀ j, j ≠ 0 → ls j = [])
    ⟨_,_,init_inv hk node,fun _ _ => rfl⟩ ?_
  rintro s call s' ⟨ls,m,hi,hempty⟩ hzero next
  obtain ⟨ls',hi',-,hothers⟩ := step_in_range hi (hzero ▸ Nat.two_pow_pos k) next
  exact ⟨ls',_,hi',fun j hj => (hothers hzero j hj).trans (hempty j hj)⟩

omit [DecidableEq K] [Inhabited K] in
theorem Inv.start (hi : Inv hash k s ls m) (call : Call K V) :
    Inv hash k (call.start hash s) ls m := by
  cases call with
  | insert key val =>
    obtain ⟨ht,hg⟩ := new_node_table hi.table ⟨soRegularkey (hash key),some (key,val)⟩
    exact hi.grows ht hg
  | get | remove => exact hi

omit [DecidableEq K] [Inhabited K] in
theorem Lists.unique {c : Cell} {l l' : List Addr} (h : Lists s c l) (h' : Lists s c l') : l = l' :=
  map_injective_iff.mpr (fun _ _ he => Cell.next.inj he)
    (cons.inj (h.chain.unique h'.chain)).2

theorem initializes_zero (hi : Inv hash k s ls m) (hempty : ∀ j, j ≠ 0 → ls j = [])
    (hzero : index hash s call.key = 0) : Initializes hash s call := by
  have hi := hi.start call
  rw [Initializes]
  simp only [hzero]
  generalize call.start hash s = s1 at hi
  intro hnull
  have hfirst : ls 0 = [] := by
    rw [(hi.table.bucket 0).list.first] at hnull
    exact head?_eq_none_iff.mp hnull
  obtain ⟨s',ls',hok,ht,-,hothers,hdummy⟩ :=
    initialize_bucket_ok hi.table (Nat.lt_succ_self 0) (Nat.two_pow_pos 63)
  obtain ⟨hlist,hnode⟩ := hdummy rfl hfirst
  have hb := ht.bucket 0
  rw [hlist] at hb
  refine ⟨s',s1.fresh,[s1.fresh],hok,?_,hnode,⟨hb.list,hb.sorted,?_⟩,mem_singleton_self _⟩
  · have hptr := hb.list.first
    have hmark := hb.list.unmarked _ mem_cons_self
    cases hc : s'.cell (.bucket 0)
    rw [hc] at hptr hmark
    simp only [head?_cons] at hptr hmark
    rw [hptr,hmark]
  · intro j l' hl' a ha
    by_cases hj : j = 0
    · subst hj
      rwa [hl'.unique hb.list] at ha
    · have hnone : ls' j = [] := (hothers j (Nat.zero_le j) hj).trans (hempty j hj)
      rw [hl'.unique (ht.bucket j).list,hnone] at ha
      cases ha

theorem not_initializes (hi : Inv hash k s ls m) (hempty : ∀ j, j ≠ 0 → ls j = [])
    (hlt : index hash s call.key < 2 ^ k) (hne : index hash s call.key ≠ 0) :
    ¬Initializes hash s call := by
  have hi := hi.start call
  have hcapacity := hi.capacity
  rw [Initializes]
  generalize call.start hash s = s1 at hi
  generalize index hash s call.key = bucket at hlt hne
  intro hdummy
  have hnull : (s1.cell (.bucket bucket)).ptr = none := by
    rw [(hi.table.bucket bucket).list.first,hempty bucket hne]
    rfl
  obtain ⟨s',a,l,hok,hcell,-⟩ := hdummy hnull
  obtain ⟨s'',ls',hok',ht,-,hothers,-⟩ :=
    initialize_bucket_ok hi.table (Nat.lt_succ_self bucket) (by omega)
  rw [hok] at hok'
  cases hok'
  have hfirst := (ht.bucket bucket).list.first
  rw [hothers bucket le_rfl hne,hempty bucket hne,hcell] at hfirst
  cases hfirst

theorem run_initialized (hk : k ≤ 30)
    (run : Run (step hash (2 ^ k)) (fun _ _ => True) (init k node) ms t)
    (hrange : ∀ m ∈ ms, index hash m.pre m.act.key < 2 ^ k)
    (hdummy : ∀ m ∈ ms, Initializes hash m.pre m.act) :
    ∀ m ∈ ms, index hash m.pre m.act.key = 0 := by
  induction run with
  | nil => simp
  | snoc run _ _ ih =>
    have hzero := ih (fun m hm => hrange m (mem_append_left _ hm))
      fun m hm => hdummy m (mem_append_left _ hm)
    obtain ⟨ls,_,hi,hempty⟩ := run_zero hk (run.restrict hzero)
    intro m hm
    rcases mem_append.mp hm with hm' | hm'
    · exact hzero m hm'
    · cases mem_singleton.mp hm'
      by_contra hne
      exact not_initializes hi hempty (hrange _ hm) hne (hdummy _ hm)

/-- A sequence of calls is one of a split-ordered map just when all the calls go to bucket 0: the
first other bucket is never made to point to its dummy. What the calls return is right for as
long as the doubled `size` does not lead beyond the array. -/
theorem split_ordered_iff (hash : K → BitVec 64) (hk : k ≤ 30) (node : Addr → Node K V)
    (run : Run (step hash (2 ^ k)) (fun _ _ => True) (init k node) ms t) :
    (SplitOrdered hash k ms ↔ ∀ m ∈ ms, index hash m.pre m.act.key = 0) ∧
      ((∀ m ∈ ms, index hash m.pre m.act.key < 2 ^ k) →
        ms.map (fun m => m.post.last) = (answers (fun _ => none) (ms.map Move.act)).map some) := by
  refine ⟨⟨fun hsplit => run_initialized hk run hsplit.range hsplit.initialized,?_⟩,
    fun hrange => (run_map hk (run.restrict hrange)).2⟩
  intro hzero
  have hrange : ∀ m ∈ ms, index hash m.pre m.act.key < 2 ^ k := by
    intro m hm
    rw [hzero m hm]
    exact Nat.two_pow_pos k
  refine ⟨hrange,?_,(run_map hk (run.restrict hrange)).2⟩
  intro m hm
  obtain ⟨ms1,ms2,rfl⟩ := append_of_mem hm
  obtain ⟨s1,run1,-⟩ := run.split (append_cons ms1 m ms2)
  obtain ⟨ls,_,hi,hempty⟩ :=
    run_zero hk (run1.last.1.restrict fun m' hm' => hzero m' (by simp [hm']))
  exact initializes_zero hi hempty (hzero m hm)

def doubling : List (Call Nat Nat) :=
  [.insert 0 10,.insert 1 11,.insert 2 12,.insert 3 13,.insert 4 14,.remove 1,.get 0]

theorem split_ordered_iff_doubling : ∃ ms t,
    Run (step (fun _ => 0) (2 ^ 0)) (fun _ _ => True) (init 0 fun _ => ⟨0,none⟩) ms t ∧
      ms.map Move.act = doubling ∧ t.size = 2 ∧ t.last = some (.value (some 10)) ∧
      SplitOrdered (fun _ => 0) 0 ms := by
  obtain ⟨t,hplay,hend⟩ : ∃ t,
      play (step (fun _ => 0) (2 ^ 0)) (init 0 fun _ => ⟨0,none⟩) doubling = some t ∧
        (t.size,t.last) = (2,some (.value (some 10))) :=
    Option.map_eq_some_iff.mp (by decide +kernel)
  have run := Run.nil.trace hplay
  obtain ⟨hsize,hlast⟩ := Prod.mk.inj hend
  refine ⟨_,t,run,trace_acts hplay,hsize,hlast,?_⟩
  refine ((split_ordered_iff (fun _ => 0) (Nat.zero_le 30) _ run).1).mpr fun m _ => ?_
  exact Nat.zero_mod _

/-- With the number of buckets of the source, a single `get` in bucket 1 leaves it null after
`initialize_bucket`. With one bucket, the fifth key doubles `size`, and a key that was inserted
before is looked for beyond the array. -/
theorem split_order_lost :
    (∃ ms t, Run (step (BitVec.ofNat 64) (2 ^ 20)) (fun _ _ => True)
        (init 20 fun _ => (⟨0,none⟩ : Node Nat Nat)) ms t ∧ ms.map Move.act = [.get 1] ∧
        t.cell (.bucket 1) = ⟨none,false⟩ ∧ ¬SplitOrdered (BitVec.ofNat 64) 20 ms) ∧
      ∃ ms t, Run (step (BitVec.ofNat 64) (2 ^ 0)) (fun _ _ => True)
        (init 0 fun _ => (⟨0,none⟩ : Node Nat Nat)) ms t ∧
        ms.map Move.act = (List.range 5).map (fun i => .insert i i) ++ [.get 1] ∧
        t.fault = some (.outOfRange 1) ∧ ¬SplitOrdered (BitVec.ofNat 64) 0 ms := by
  constructor
  · obtain ⟨t,hnext,hcell⟩ : ∃ t, step (BitVec.ofNat 64) (2 ^ 20)
        (init 20 fun _ => (⟨0,none⟩ : Node Nat Nat)) (.get 1) = some t ∧
          t.cell (.bucket 1) = ⟨none,false⟩ :=
      Option.map_eq_some_iff.mp (by decide +kernel)
    have run : Run (step (BitVec.ofNat 64) (2 ^ 20)) (fun _ _ => True)
        (init 20 fun _ => (⟨0,none⟩ : Node Nat Nat)) [⟨_,.get 1,t⟩] t := Run.nil.snoc trivial hnext
    refine ⟨_,t,run,rfl,hcell,fun hsplit => ?_⟩
    have hzero := run_initialized (by omega) run hsplit.range hsplit.initialized _
      (mem_singleton_self _)
    simp [index,init,Call.key,Call.toMap,Maps.Call.key] at hzero
  · obtain ⟨s,hplay,hsize⟩ : ∃ s, play (step (BitVec.ofNat 64) (2 ^ 0))
        (init 0 fun _ => (⟨0,none⟩ : Node Nat Nat)) ((List.range 5).map fun i => .insert i i) =
          some s ∧ (s.size,s.fault) = (2,none) :=
      Option.map_eq_some_iff.mp (by decide +kernel)
    obtain ⟨hsize,hfault⟩ := Prod.mk.inj hsize
    have hindex : index (BitVec.ofNat 64) s 1 = 1 := by
      rw [index,hsize]
      rfl
    have hnext : step (BitVec.ofNat 64) (2 ^ 0) s (.get 1) =
        some { s with last := none, fault := some (.outOfRange 1) } := by
      simp [step,hfault,perform,get,hindex,openBucket,bind,Except.bind]
    refine ⟨_,_,(Run.nil.trace hplay).snoc trivial hnext,?_,rfl,fun hsplit => ?_⟩
    · rw [nil_append,map_append,trace_acts hplay]
      rfl
    · have hlt := hsplit.range _ (mem_append_right _ (mem_singleton_self _))
      rw [Call.key,Call.toMap,Maps.Call.key,hindex] at hlt
      exact lt_irrefl _ hlt

end Montage.SSHashTable
