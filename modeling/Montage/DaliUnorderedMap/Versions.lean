import Montage.Library.Chains
import Montage.DaliUnorderedMap.Model

namespace Montage.DaliUnorderedMap
open Library Recoverable Function
open List hiding Chain

variable {K V : Type} {s : State K V} {us : List (Call K V)} {chain : Nat → List Addr}
  {owner : Addr → Nat ⊕ Nat × Nat} {i : Nat}

def bindings (node : Addr → Node K V) (l : List Addr) : List (K × Option V) :=
  l.map fun x => ((node x).key,(node x).val)

def State.value [DecidableEq K] (s : State K V) (l : List Addr) (key : K) : Option V :=
  ((bindings s.node l).find? fun y => y.1 = key).bind Prod.snd

/-- After the calls `us`, the nodes of each bucket are those of `chain`. A node belongs to one bucket
or to one container of retired nodes. -/
structure Rep [DecidableEq K] (s : State K V) (us : List (Call K V)) (owner : Addr → Nat ⊕ Nat × Nat)
    (chain : Nat → List Addr) : Prop where
  flist : s.flist = []
  stat : ∀ i, (s.buckets i).stat = lastEpoch us i % 2 ^ 58
  chains : ∀ i, Chain (fun x => (s.node x).next) ((s.buckets i).ptrs 0) (chain i)
  linked : ∀ i, ∀ x ∈ chain i, x ∈ s.live ∧ owner x = .inl i
  retired : ∀ t k, ∀ x ∈ s.retired t k, x ∈ s.live ∧ owner x = .inr (t,k)
  nodup : ∀ t k, (s.retired t k).Nodup
  value : ∀ i key, s.value (chain i) key = valueAfter us i key

theorem stat_fields {stat : Nat} (h : stat < 2 ^ 58) :
    a stat = 0 ∧ f stat = 0 ∧ c stat = 0 ∧ ss stat = stat := by
  have hzero : ∀ k ≥ 58, stat >>> k = 0 := by
    intro k hk
    rw [Nat.shiftRight_eq_div_pow,Nat.div_eq_of_lt]
    exact lt_of_lt_of_le h (Nat.pow_le_pow_right (by decide) hk)
  refine ⟨?_,?_,?_,Nat.and_two_pow_sub_one_of_lt_two_pow h⟩
  · rw [a,Nat.shiftRight_and_distrib,hzero 62 (by decide),Nat.zero_and]
  · rw [f,Nat.shiftRight_and_distrib,hzero 60 (by decide),Nat.zero_and]
  · rw [c,Nat.shiftRight_and_distrib,hzero 58 (by decide),Nat.zero_and]

theorem new_stat_zero (e : Nat) : newStat 0 0 0 e = e % 2 ^ 58 := by
  rw [← Nat.and_two_pow_sub_one_eq_mod]
  simp [newStat]

/-- With all three pointers the same, every rotation leaves them the same. -/
theorem lookup_spec {b : Bucket} (h : b.stat < 2 ^ 58) (e : Nat) (preFail : Bool) :
    ∃ ptrs, lookup e false preFail b = (e % 2 ^ 58,{ b with ptrs := ptrs }) := by
  obtain ⟨ha,hf,hc,hss⟩ := stat_fields h
  simp only [lookup,ha,hf,hc,hss,new_stat_zero,Bool.not_false,if_true,ite_self,Bucket.invalidate]
  split
  next heq => exact ⟨b.ptrs,by rw [← heq,Nat.mod_eq_of_lt h]⟩
  next =>
    split
    next => exact ⟨b.ptrs,rfl⟩
    next => exact ⟨_,rfl⟩

theorem update_retired (r : Nat → Nat → List Addr) (t k : Nat) (l : List Addr) (u j : Nat) :
    update r t (update (r t) k l) u j = if u = t ∧ j = k then l else r u j := by
  by_cases hu : u = t
  · subst hu
    simp [update_apply]
  · simp [hu]

theorem find_skip {α : Type} {p : α → Bool} {x : α} {l1 l2 : List α}
    (h : p x = true → ∃ y ∈ l1, p y = true) : (l1 ++ x :: l2).find? p = (l1 ++ l2).find? p := by
  rw [find?_append,find?_append]
  cases hfound : l1.find? p with
  | some => rfl
  | none =>
    have hx : ¬p x = true := by
      intro hx
      obtain ⟨y,hy,hpy⟩ := h hx
      exact find?_eq_none.mp hfound y hy hpy
    rw [find?_cons_of_neg hx]

theorem last_epoch_concat (us : List (Call K V)) (u : Call K V) (i : Nat) :
    lastEpoch (us ++ [u]) i = if u.idx = i then u.e else lastEpoch us i := by
  simp [lastEpoch]

theorem bindings_congr {node node' : Addr → Node K V} {l : List Addr}
    (h : ∀ x ∈ l, node' x = node x) : bindings node' l = bindings node l :=
  map_congr_left fun x hx => by rw [h x hx]

theorem delete_all {l : List Addr} (hnodup : l.Nodup) (hlive : ∀ x ∈ l, x ∈ s.live) :
    ∃ live, l.foldrM State.delete s = some { s with live := live } ∧
      ∀ x ∈ s.live, x ∉ l → x ∈ live := by
  induction l with
  | nil => exact ⟨s.live,rfl,fun x hx _ => hx⟩
  | cons y l ih =>
    obtain ⟨hy,hl⟩ := nodup_cons.mp hnodup
    obtain ⟨live,hdelete,hkept⟩ := ih hl fun x hx => hlive x (mem_cons_of_mem _ hx)
    refine ⟨live.erase y,?_,fun x hx hout => ?_⟩
    · rw [foldrM_cons,hdelete]
      exact if_pos (hkept y (hlive y mem_cons_self) hy)
    · rw [mem_cons,not_or] at hout
      exact Finset.mem_erase.mpr ⟨hout.1,hkept x hx hout.2⟩

variable [DecidableEq K]

theorem find_value_eq {r : Option Addr} {l : List Addr} {fuel : Nat} (key : K)
    (h : Chain (fun x => (s.node x).next) r l) (hlive : ∀ x ∈ l, x ∈ s.live)
    (hfuel : l.length ≤ fuel) : s.findValue key fuel r = some (s.value l key) := by
  induction h generalizing fuel with
  | nil => cases fuel <;> rfl
  | @cons l x _ ih =>
    cases fuel with
    | zero => cases hfuel
    | succ fuel =>
      have hrest := ih (fun y hy => hlive y (mem_cons_of_mem _ hy)) (Nat.le_of_succ_le_succ hfuel)
      rw [State.findValue,State.load,if_pos (hlive x mem_cons_self),Option.bind_some,hrest]
      unfold State.value bindings
      by_cases hkey : (s.node x).key = key <;> simp [hkey]

theorem value_after_concat (us : List (Call K V)) (u : Call K V) (i : Nat) (key : K) :
    valueAfter (us ++ [u]) i key =
      if u.idx = i ∧ u.key = key then u.val else valueAfter us i key := by
  simp [valueAfter]

theorem sweep_cases (tid e fuel : Nat) (seen : List K) (prev : Addr) (done : List Addr)
    {r : Option Addr} {l : List Addr} (h : Chain (fun x => (s.node x).next) r l)
    (hlive : ∀ x ∈ l, x ∈ s.live) (hfuel : l.length ≤ fuel)
    (hseen : ∀ k ∈ seen, ∃ y ∈ done ++ [prev], (s.node y).key = k) :
    s.sweep tid e fuel seen prev r = some s ∨ ∃ l1 p x l2, done ++ prev :: l = l1 ++ p :: x :: l2 ∧
      (∃ y ∈ l1 ++ [p], (s.node y).key = (s.node x).key) ∧
      s.sweep tid e fuel seen prev r = some (s.unlink p x (s.node x).next tid e) := by
  induction h generalizing fuel seen prev done with
  | nil => exact .inl (by cases fuel <;> rfl)
  | @cons l x _ ih =>
    cases fuel with
    | zero => cases hfuel
    | succ fuel =>
      rw [State.sweep,State.load,if_pos (hlive x mem_cons_self),Option.bind_some]
      split
      next hmem => exact .inr ⟨done,prev,x,l,rfl,hseen _ hmem,rfl⟩
      next =>
        have hnext := ih fuel ((s.node x).key :: seen) x (done ++ [prev])
          (fun y hy => hlive y (mem_cons_of_mem _ hy)) (Nat.le_of_succ_le_succ hfuel) ?_
        · simpa using hnext
        · intro k hk
          rcases mem_cons.mp hk with rfl | hk
          · exact ⟨x,by simp,rfl⟩
          · obtain ⟨y,hy,heq⟩ := hseen k hk
            exact ⟨y,mem_append_left _ hy,heq⟩

theorem init_rep [Inhabited K] : Rep (init : State K V) [] (fun _ => .inl 0) (fun _ => []) :=
  ⟨rfl,fun _ => rfl,fun _ => .nil,by simp,by simp [init],by simp [init],fun _ _ => rfl⟩

section
variable (h : Rep s us owner chain)
include h

theorem Rep.length_le (i : Nat) : (chain i).length ≤ s.live.card := by
  rw [← toFinset_card_of_nodup (h.chains i).nodup]
  exact Finset.card_le_card fun x hx => (h.linked i x (mem_toFinset.mp hx)).1

theorem Rep.push (u : Call K V) {n : Addr} (hn : n ∉ s.live) {b : Bucket}
    (hstat : b.stat = u.e % 2 ^ 58) (hptr : b.ptrs 0 = some n) :
    Rep { s with
      node := update s.node n ⟨u.key,u.val,(s.buckets u.idx).ptrs 0⟩
      live := insert n s.live
      buckets := update s.buckets u.idx b } (us ++ [u]) (update owner n (.inl u.idx))
      (update chain u.idx (n :: chain u.idx)) := by
  have hold : ∀ x ∈ s.live, x ≠ n := fun x hx heq => hn (heq ▸ hx)
  have hsame : ∀ i, ∀ x ∈ chain i,
      update s.node n ⟨u.key,u.val,(s.buckets u.idx).ptrs 0⟩ x = s.node x :=
    fun i x hx => update_of_ne (hold x (h.linked i x hx).1) _ _
  have hchain := fun i => (h.chains i).congr fun x hx => congrArg Node.next (hsame i x hx)
  refine ⟨h.flist,fun i => ?_,fun i => ?_,fun i x hx => ?_,fun t k x hx => ?_,h.nodup,fun i key => ?_⟩
  · rw [last_epoch_concat]
    by_cases hi : i = u.idx
    · simp [hi,hstat]
    · simp [hi,Ne.symm hi,h.stat]
  · by_cases hi : i = u.idx
    · subst hi
      simp only [update_self,hptr]
      refine .cons n ?_
      simpa using hchain u.idx
    · simpa [hi] using hchain i
  · have hlinked := h.linked i x
    grind [update_apply]
  · obtain ⟨hlive,hown⟩ := h.retired t k x hx
    simp [hlive,hown,hold x hlive]
  · rw [value_after_concat,← h.value i key]
    have hbindings := bindings_congr (hsame i)
    unfold State.value
    by_cases hi : i = u.idx
    · subst hi
      rw [update_self,← hbindings]
      by_cases hkey : u.key = key <;> simp [bindings,hkey]
    · rw [update_of_ne hi,if_neg fun hu => hi hu.1.symm,← hbindings]

theorem Rep.reclaim (tid : Nat) (e : Int) :
    ∃ s', s.reclaim tid e = some s' ∧ Rep s' us owner chain := by
  unfold State.reclaim
  split
  next => exact ⟨s,rfl,h⟩
  next =>
    generalize hk : (e % 4).toNat = k
    obtain ⟨live,hdelete,hkept⟩ := delete_all (h.nodup tid k) fun x hx => (h.retired tid k x hx).1
    simp only [hdelete,Option.map_some]
    refine ⟨_,rfl,?_⟩
    -- what is left belongs to others
    have hlive : ∀ x ∈ s.live, owner x ≠ .inr (tid,k) → x ∈ live :=
      fun x hx hown => hkept x hx fun hmem => hown (h.retired tid k x hmem).2
    refine ⟨h.flist,h.stat,h.chains,fun i x hx => ?_,fun t j x hx => ?_,fun t j => ?_,h.value⟩
    · obtain ⟨hx,hown⟩ := h.linked i x hx
      exact ⟨hlive x hx (by simp [hown]),hown⟩
    · have hretired := h.retired t j x
      grind [update_retired]
    · have hnodup := h.nodup t j
      grind [update_retired]

theorem Rep.unlink {l1 l2 : List Addr} {p x : Addr} (tid e : Nat)
    (hi : chain i = l1 ++ p :: x :: l2) (hdup : ∃ y ∈ l1 ++ [p], (s.node y).key = (s.node x).key) :
    Rep (s.unlink p x (s.node x).next tid e) us (update owner x (.inr (tid,e % 4)))
      (update chain i (l1 ++ p :: l2)) := by
  have hchain := h.chains i
  rw [hi] at hchain
  have hpi : p ∈ chain i := by simp [hi]
  have hxi : x ∈ chain i := by simp [hi]
  have hx : ∀ y ∈ l1 ++ p :: l2, y ≠ x := by
    have hne := (append_cons l1 p (x :: l2) ▸ hchain).others
    simpa using hne
  have hlinked : ∀ j, ∀ y ∈ update chain i (l1 ++ p :: l2) j, y ∈ chain j ∧ y ≠ x := by
    intro j y hy
    have hlinked := h.linked j y
    have hxown := h.linked i x hxi
    grind [update_apply]
  have hbindings : ∀ l, bindings (s.unlink p x (s.node x).next tid e).node l = bindings s.node l := by
    refine fun l => map_congr_left fun y _ => ?_
    by_cases hy : y = p <;> simp [State.unlink,hy]
  have hretired : ∀ t k, ∀ y ∈ s.retired t k, y ≠ x := by
    rintro t k y hy rfl
    cases (h.retired t k y hy).2.symm.trans (h.linked i y hxi).2
  refine ⟨h.flist,h.stat,fun j => ?_,fun j y hy => ?_,fun t k y hy => ?_,fun t k => ?_,fun j key => ?_⟩
  · by_cases hj : j = i
    · subst hj
      rw [update_self]
      refine hchain.remove_after (by simp [State.unlink]) fun y hy => ?_
      have hyp := hchain.others y (by simp only [mem_append,mem_cons] at hy ⊢; tauto)
      simp [State.unlink,hyp]
    · rw [update_of_ne hj]
      refine (h.chains j).congr fun y hy => ?_
      have hyp : y ≠ p := by
        rintro rfl
        exact hj (Sum.inl.inj ((h.linked j y hy).2.symm.trans (h.linked i y hpi).2))
      simp [State.unlink,hyp]
  · obtain ⟨hy,hne⟩ := hlinked j y hy
    rw [update_of_ne hne]
    exact h.linked j y hy
  · have hold := h.retired t k y
    have hxlive := (h.linked i x hxi).1
    simp only [State.unlink,update_retired] at hy ⊢
    grind [update_apply]
  · have hnodup := h.nodup t k
    have hnew := hretired t k x
    simp only [State.unlink,update_retired]
    grind
  · rw [← h.value j key]
    unfold State.value
    rw [hbindings]
    by_cases hj : j = i
    · subst hj
      obtain ⟨y,hy,hkey⟩ := hdup
      have hsplit : ∀ l, bindings s.node (l1 ++ p :: l) =
          bindings s.node (l1 ++ [p]) ++ bindings s.node l := by simp [bindings]
      have hcons : bindings s.node (x :: l2) = ((s.node x).key,(s.node x).val) :: bindings s.node l2 :=
        rfl
      rw [update_self,hi,hsplit (x :: l2),hsplit l2,hcons,find_skip]
      intro hz
      exact ⟨_,mem_map.mpr ⟨y,hy,rfl⟩,by simpa [hkey] using hz⟩
    · rw [update_of_ne hj]

theorem Rep.do_gc {n x : Addr} {l : List Addr} (hi : chain i = n :: x :: l)
    (now tid : Nat) : ∃ s' owner' chain', s.doGc now i x tid = some s' ∧ Rep s' us owner' chain' := by
  have hptrs : ∀ j, (update s.buckets i { s.buckets i with gcTimer := 0 } j).ptrs = (s.buckets j).ptrs ∧
      (update s.buckets i { s.buckets i with gcTimer := 0 } j).stat = (s.buckets j).stat := by
    intro j
    by_cases hj : j = i <;> simp [hj]
  have htimers : ∀ timers, Rep { s with
      buckets := update s.buckets i { s.buckets i with gcTimer := 0 }
      reclaimTimers := timers } us owner chain := fun timers =>
    ⟨h.flist,fun j => (hptrs j).2.trans (h.stat j),fun j => (hptrs j).1 ▸ h.chains j,h.linked,h.retired,
      h.nodup,h.value⟩
  -- the loop, after retired nodes may have been deleted
  have hsweep : ∀ s1 : State K V, Rep s1 us owner chain → ∃ s' owner' chain',
      ((s1.load x).bind fun n => s1.sweep tid now s1.live.card [n.key] x n.next) = some s' ∧
        Rep s' us owner' chain' := by
    intro s1 h1
    have hchain := h1.chains i
    have hlive := fun y hy => (h1.linked i y hy).1
    have hlength := h1.length_le i
    rw [hi] at hchain hlive hlength
    rw [State.load,if_pos (hlive x (by simp)),Option.bind_some]
    have htail := Chain.split (show Chain _ _ ([n] ++ x :: l) from hchain)
    rcases sweep_cases tid now s1.live.card [(s1.node x).key] x [] htail
      (fun y hy => hlive y (by simp [hy])) (le_trans (by simp; omega) hlength) (by simp) with
      hsame | ⟨l1,p,y,l2,hl,hdup,hunlink⟩
    · exact ⟨s1,owner,chain,hsame,h1⟩
    · have hi' : chain i = (n :: l1) ++ p :: y :: l2 := by
        rw [hi,cons_append,← hl,nil_append]
      obtain ⟨z,hz,hkey⟩ := hdup
      exact ⟨_,_,_,hunlink,h1.unlink tid now hi' ⟨z,mem_cons_of_mem n hz,hkey⟩⟩
  unfold State.doGc
  dsimp only
  split
  next =>
    obtain ⟨s1,hfirst,h1⟩ := (htimers (update s.reclaimTimers tid 0)).reclaim tid (now - 2)
    obtain ⟨s2,hsecond,h2⟩ := h1.reclaim tid (now - 3)
    rw [hfirst]
    simp only [Option.bind_some,hsecond]
    exact hsweep s2 h2
  next => exact hsweep _ (htimers _)

theorem Rep.call (al : Allocator) (u : Call K V) :
    ∃ s' head owner' chain', s.update al u.idx u.key u.val u.tid u.e u.now = some (s',head) ∧
      Rep s' (us ++ [u]) owner' chain' := by
  have hlt : (s.buckets u.idx).stat < 2 ^ 58 := by
    rw [h.stat]
    exact Nat.mod_lt _ (by decide)
  have hmod : u.e % 2 ^ 58 < 2 ^ 58 := Nat.mod_lt _ (by decide)
  obtain ⟨ptrs,hlookup⟩ := lookup_spec hlt u.e ((s.buckets u.idx).ptrs 0).isNone
  have hpush := h.push u (al.fresh_not_mem s.live) (b := ⟨u.e % 2 ^ 58,
    update ptrs 0 (some (al.fresh s.live)),((s.buckets u.idx).gcTimer + 1) % 2 ^ 64⟩) rfl
    (by simp)
  have hfind : ∀ v, find v s.flist = false := by
    rw [h.flist]
    exact fun _ => rfl
  simp only [State.update,hfind,Bool.false_or,State.validHead,Bool.not_false,if_true,
    (stat_fields hlt).1,(stat_fields hlt).2.1,hlookup,(stat_fields hmod).1]
  split
  next hhead => exact ⟨_,_,_,_,rfl,hpush⟩
  next x hhead =>
    split
    next =>
      have hchain := h.chains u.idx
      rw [hhead] at hchain
      cases hl : chain u.idx with
      | nil =>
        rw [hl] at hchain
        cases hchain
      | cons y l =>
        rw [hl] at hchain
        cases hchain
        obtain ⟨s',owner',chain',hgc,h'⟩ := hpush.do_gc (by rw [update_self,hl]) u.now u.tid
        exact ⟨s',_,owner',chain',by rw [hgc]; rfl,h'⟩
    next => exact ⟨_,_,_,_,rfl,hpush⟩

theorem Rep.run (al : Allocator) (us' : List (Call K V)) :
    ∃ s' owner' chain', s.run al us' = some s' ∧ Rep s' (us ++ us') owner' chain' := by
  induction us' generalizing s us owner chain with
  | nil => exact ⟨s,owner,chain,rfl,by rwa [append_nil]⟩
  | cons u us' ih =>
    obtain ⟨s1,head,owner1,chain1,hupdate,h1⟩ := h.call al u
    obtain ⟨s',owner',chain',hrun,h'⟩ := ih h1
    refine ⟨s',owner',chain',?_,by rwa [append_assoc] at h'⟩
    rw [State.run,hupdate]
    exact hrun

/-- What recovery finds from the older head is what the last call has left. -/
theorem Rep.older (i : Nat) (key : K) :
    s.findValue key s.live.card (s.buckets i).olderHead = some (valueAfter us i key) ∧
      ss (s.buckets i).stat = lastEpoch us i % 2 ^ 58 := by
  have hlt : (s.buckets i).stat < 2 ^ 58 := by
    rw [h.stat]
    exact Nat.mod_lt _ (by decide)
  obtain ⟨-,hf,hc,hss⟩ := stat_fields hlt
  rw [Bucket.olderHead,hf,hc,Option.or_self,hss,← h.value i key]
  exact ⟨find_value_eq key (h.chains i) (fun x hx => (h.linked i x hx).1) (h.length_le i),h.stat i⟩

end

/-- The older head shows the bucket as it was before its last epoch exactly if the calls of that epoch
have left it so. -/
theorem older_head_iff [Inhabited K] (al : Allocator) (us : List (Call K V)) (i : Nat) :
    ∃ s, State.run al init us = some s ∧
      ((∀ key, s.findValue key s.live.card (s.buckets i).olderHead =
          some (valueAfter (us.filter fun u => u.e < ss (s.buckets i).stat) i key)) ↔
        ∀ key, valueAfter us i key =
          valueAfter (us.filter fun u => u.e < lastEpoch us i % 2 ^ 58) i key) := by
  obtain ⟨s,owner,chain,hrun,h⟩ := init_rep.run al us
  refine ⟨s,hrun,forall_congr' fun key => ?_⟩
  obtain ⟨hvalue,hss⟩ := h.older i key
  rw [nil_append] at hvalue hss
  rw [hvalue,hss,Option.some_inj]

/-- The first call is at once what the older head shows. -/
theorem older_head_fails : ∃ s, State.run above init [⟨0,7,some 8,0,1,1⟩] = some s ∧
    s.findValue 7 s.live.card (s.buckets 0).olderHead = some (some 8) ∧
    valueAfter ([⟨0,7,some 8,0,1,1⟩].filter fun u => u.e < ss (s.buckets 0).stat) 0 7 = none := by
  obtain ⟨s,owner,chain,hrun,h⟩ := init_rep.run above [⟨0,7,some 8,0,1,1⟩]
  obtain ⟨hvalue,hss⟩ := h.older 0 7
  refine ⟨s,hrun,hvalue,?_⟩
  rw [hss]
  rfl

end Montage.DaliUnorderedMap
