import Montage.MontageHashTable.Sections

namespace Montage.MontageHashTable
open Library Library.Maps Recoverable EpochSys Function List Option
open Recoverable.Memory hiding call
open ToBeFreed (Kind)

variable {K V : Type} [LinearOrder K]

def Pc.newNode : Pc K V → Option Addr
  | .idle _ => none
  | .called _ newNode | .inside _ newNode _ => newNode

inductive Prepared (P : Addr → Prop) (content : Addr → Payload K V) (call : Call K V) :
    Option Addr → Prop
  | without (made : call.made = none) : Prepared P content call none
  | node (made : call.made = some val) (state : P a) (payload : content a = ⟨call.key,val⟩) :
      Prepared P content call (some a)

def Pc.Inv (m : Memory) (content : Addr → Payload K V) (e : Nat) (th : Thread) : Pc K V → Prop
  | .idle _ => th.epoch = none ∧ th.pendingRetires = [] ∧ th.pendingAllocs = []
  | .called call newNode => th.epoch = none ∧ th.pendingRetires = [] ∧
      th.pendingAllocs = newNode.toList ∧ Prepared (Unregistered m) content call newNode
  | .inside call newNode c => c ≠ nullEpoch ∧ c ≤ e ∧ th.pendingRetires = [] ∧
      (if call.readOnly then th.epoch = none ∧ th.pendingAllocs = [] else th.epoch = some c) ∧
      Prepared (Current m c) content call newNode

structure Kept (m : Memory) (content : Addr → Payload K V) (m' : Memory)
    (content' : Addr → Payload K V) (p : Addr) : Prop where
  content : content' p = content p
  unregistered : Unregistered m p → Unregistered m' p
  current : ∀ c, Current m c p → Current m' c p

section Stable
variable {m m' : Memory} {content content' : Addr → Payload K V} {a b p : Addr} {e e' c : Nat}
  {call : Call K V} {newNode : Option Addr} {th : Thread} {pc : Pc K V}

section
omit [LinearOrder K]

theorem Prepared.imp {P P' : Addr → Prop} (h : Prepared P content call newNode)
    (hP : ∀ a, newNode = some a → P a → P' a) (hc : ∀ a, newNode = some a → content' a = content a) :
    Prepared P' content' call newNode := by
  cases h with
  | without made => exact .without made
  | node made state payload => exact .node made (hP _ rfl state) ((hc _ rfl).trans payload)

theorem Pc.Inv.frame (h : pc.Inv m content e th) (he : e ≤ e')
    (hkept : ∀ a, pc.newNode = some a → Kept m content m' content' a) :
    pc.Inv m' content' e' th := by
  cases pc with
  | idle => exact h
  | called =>
    obtain ⟨hepoch,hretires,hallocs,hnode⟩ := h
    exact ⟨hepoch,hretires,hallocs,
      hnode.imp (fun a ha => (hkept a ha).unregistered) fun a ha => (hkept a ha).content⟩
  | inside _ _ c =>
    obtain ⟨hc,hle,hretires,hepoch,hnode⟩ := h
    exact ⟨hc,hle.trans he,hretires,hepoch,
      hnode.imp (fun a ha => (hkept a ha).current c) fun a ha => (hkept a ha).content⟩

theorem Kept.refl (m : Memory) (content : Addr → Payload K V) (p : Addr) :
    Kept m content m content p := ⟨rfl,id,fun _ => id⟩

theorem kept_makes (hm : Makes m a m') (hu : Unregistered m' a) (ha : a ∉ m.allocated)
    (hp : p ∈ m.allocated) (v : Payload K V) :
    Kept m content m' (update content a v) p := by
  have hne : p ≠ a := fun he => ha (he ▸ hp)
  exact ⟨update_of_ne hne _ _,(hm.same hne).unregistered,fun c hc => hc.makes hm hu ha⟩

theorem kept_registers (hr : Registers m bs c i m') (hlength : bs.length ≤ 1)
    (hunused : Unused m i) (hne : p ∉ bs) : Kept m content m' content p :=
  ⟨rfl,(hr.same hne).unregistered,fun _ hc => hc.registers hr hlength hunused hne⟩

theorem kept_drains (ht : Tidy m) (hb : b ∈ m.waiting) : Kept m content (m.drain b c) content p where
  content := rfl
  unregistered := by
    intro hu
    have hne : p ≠ b := fun he => hu.kept (he ▸ hb)
    exact (drain_same ht hne).unregistered hu
  current := fun _ hp => hp.drains ht hb

end

theorem Performs.kept {hash : K → Nat} {w w' : Section K V}
    (h : Performs hash idxSize i c call newNode w w' ret)
    (hallocated : p ∈ w.mem.allocated) (hbucket : p ∉ w.bucket) (hown : newNode ≠ some p) :
    Kept w.mem w.content w'.mem w'.content p := by
  obtain ⟨hsame,hcontent,-⟩ := h.same p hallocated hbucket hown
  exact ⟨hcontent,hsame.unregistered,fun c' hp => h.current p c' hbucket hown hp⟩

end Stable

variable (hash : K → Nat) (idxSize : Nat)

structure Inv (s : State K V) : Prop where
  intact : s.crashed = none
  started : s.epoch ≠ nullEpoch
  tidy : Tidy s.mem
  threads : ∀ t, (s.pc t).Inv s.mem s.content s.epoch (s.thread t)
  apart : ∀ t u a, (s.pc t).newNode = some a → (s.pc u).newNode = some a → t = u
  unlinked : ∀ t a i, (s.pc t).newNode = some a → a ∉ s.buckets i
  locks : ∀ i t, s.lock i = some t ↔
    ∃ call newNode c, s.pc t = .inside call newNode c ∧ hash call.key % idxSize = i
  nodes : ∀ i, ∀ p ∈ s.buckets i, Current s.mem s.epoch p
  place : ∀ i, ∀ p ∈ s.buckets i, hash (s.content p).key % idxSize = i
  sorted : ∀ i, Sorted s.content (s.buckets i)
  under : ∀ t call newNode c, s.pc t = .inside call newNode c →
    ∀ p ∈ s.buckets (hash call.key % idxSize), Current s.mem c p

theorem init_inv (content : Addr → Payload K V) : Inv hash idxSize (init content) where
  intact := rfl
  started := by simp [init,initEpoch,nullEpoch]
  tidy := ⟨nodup_nil,fun _ h => absurd h not_mem_nil⟩
  threads := fun _ => ⟨rfl,rfl,rfl⟩
  apart := by
    intro t u a h
    cases h
  unlinked := by
    intro t a i h
    cases h
  locks := by simp [init]
  nodes := fun _ _ h => absurd h not_mem_nil
  place := fun _ _ h => absurd h not_mem_nil
  sorted := fun _ => List.Pairwise.nil
  under := by
    intro t call newNode c h
    cases h

variable {hash idxSize} {s s' : State K V} {k : Kind} {al : Allocator} {t : Nat} {call : Call K V}
  {newNode : Option Addr} {a : Addr} {c : Nat}

section
variable (hi : Inv hash idxSize s)
include hi

theorem Inv.allocated_node (h : (s.pc t).newNode = some a) : a ∈ s.mem.allocated := by
  have hinv := hi.threads t
  generalize s.pc t = pc at h hinv
  cases pc with
  | idle => cases h
  | called _ newNode =>
    obtain ⟨-,-,-,hnode⟩ := hinv
    obtain rfl : newNode = some a := h
    cases hnode with
    | node _ state => exact state.allocated
  | inside _ newNode =>
    obtain ⟨-,-,-,-,hnode⟩ := hinv
    obtain rfl : newNode = some a := h
    cases hnode with
    | node _ state => exact state.allocated

structure Quiet (s s' : State K V) (t : Option Nat) : Prop where
  buckets : s'.buckets = s.buckets
  epoch : s.epoch ≤ s'.epoch
  tidy : Tidy s'.mem
  others : ∀ u, some u ≠ t → s'.pc u = s.pc u ∧ s'.thread u = s.thread u
  linked : ∀ i, ∀ p ∈ s.buckets i, Kept s.mem s.content s'.mem s'.content p
  own : ∀ u, some u ≠ t → ∀ a, (s.pc u).newNode = some a →
    Kept s.mem s.content s'.mem s'.content a

omit hi in
theorem Quiet.contents (hq : Quiet s s' v) : contents hash idxSize s' = contents hash idxSize s := by
  funext key
  rw [MontageHashTable.contents,hq.buckets]
  exact lookup_congr fun p hp => (hq.linked _ p hp).content

theorem Inv.quiet (hq : Quiet s s' v) (hintact : s'.crashed = none)
    (hthread : ∀ t, some t = v → (s'.pc t).Inv s'.mem s'.content s'.epoch (s'.thread t))
    (hnode : ∀ t, some t = v → ∀ a, (s'.pc t).newNode = some a →
      (∀ u, u ≠ t → (s.pc u).newNode ≠ some a) ∧ ∀ i, a ∉ s.buckets i)
    (hlocks : ∀ i t, s'.lock i = some t ↔
      ∃ call newNode c, s'.pc t = .inside call newNode c ∧ hash call.key % idxSize = i)
    (hunder : ∀ t, some t = v → ∀ call newNode c, s'.pc t = .inside call newNode c →
      ∀ p ∈ s.buckets (hash call.key % idxSize), Current s'.mem c p) : Inv hash idxSize s' where
  intact := hintact
  started := Nat.pos_iff_ne_zero.mp (lt_of_lt_of_le (Nat.pos_of_ne_zero hi.started) hq.epoch)
  tidy := hq.tidy
  threads := by
    intro u
    by_cases hu : some u = v
    · exact hthread u hu
    · obtain ⟨hpc,hth⟩ := hq.others u hu
      rw [hpc,hth]
      exact (hi.threads u).frame hq.epoch (hq.own u hu)
  apart := by
    intro u u' a h h'
    by_cases hu : some u = v
    · by_contra hne
      have hu' : some u' ≠ v := fun he => hne (some.inj (hu.trans he.symm))
      rw [(hq.others u' hu').1] at h'
      exact (hnode u hu a h).1 u' (Ne.symm hne) h'
    · by_cases hu' : some u' = v
      · by_contra hne
        rw [(hq.others u hu).1] at h
        exact (hnode u' hu' a h').1 u hne h
      · rw [(hq.others u hu).1] at h
        rw [(hq.others u' hu').1] at h'
        exact hi.apart u u' a h h'
  unlinked := by
    intro u a i h
    rw [hq.buckets]
    by_cases hu : some u = v
    · exact (hnode u hu a h).2 i
    · rw [(hq.others u hu).1] at h
      exact hi.unlinked u a i h
  locks := hlocks
  nodes := by
    intro i p hp
    rw [hq.buckets] at hp
    exact ((hq.linked i p hp).current _ (hi.nodes i p hp)).later hq.epoch
  place := by
    intro i p hp
    rw [hq.buckets] at hp
    rw [(hq.linked i p hp).content]
    exact hi.place i p hp
  sorted := by
    intro i
    rw [hq.buckets]
    exact (hi.sorted i).congr fun p hp => by rw [(hq.linked i p hp).content]
  under := by
    intro u call newNode c h p hp
    rw [hq.buckets] at hp
    by_cases hu : some u = v
    · exact hunder u hu call newNode c h p hp
    · rw [(hq.others u hu).1] at h
      exact (hq.linked _ p hp).current c (hi.under u call newNode c h p hp)

theorem Inv.goto_locks {pc pc' : Pc K V} (hpc : s.pc t = pc)
    (hout : ∀ call newNode c, pc ≠ .inside call newNode c)
    (hout' : ∀ call newNode c, pc' ≠ .inside call newNode c) (i u : Nat) :
    s.lock i = some u ↔ ∃ call newNode c, update s.pc t pc' u = .inside call newNode c ∧
      hash call.key % idxSize = i := by
  rw [hi.locks]
  by_cases hu : u = t
  · subst hu
    rw [update_self,hpc]
    simp [hout,hout']
  · rw [update_of_ne hu]

theorem Inv.advance : Quiet s { s with epoch := s.epoch + 1 } none ∧
      Inv hash idxSize { s with epoch := s.epoch + 1 } := by
  have hq : Quiet s { s with epoch := s.epoch + 1 } none := by
    refine ⟨rfl,Nat.le_succ _,hi.tidy,fun _ _ => ⟨rfl,rfl⟩,fun _ _ _ => .refl _ _ _,
      fun _ _ _ _ => .refl _ _ _⟩
  refine ⟨hq,hi.quiet hq hi.intact ?_ ?_ hi.locks ?_⟩ <;> simp

theorem Inv.drain (hb : b ∈ s.mem.waiting) (c : Nat) :
    Quiet s { s with mem := s.mem.drain b c } none ∧
      Inv hash idxSize { s with mem := s.mem.drain b c } := by
  have hq : Quiet s { s with mem := s.mem.drain b c } none := by
    refine ⟨rfl,le_rfl,drain_tidy hi.tidy,fun _ _ => ⟨rfl,rfl⟩,
      fun _ _ _ => kept_drains hi.tidy hb,fun _ _ _ _ => kept_drains hi.tidy hb⟩
  refine ⟨hq,hi.quiet hq hi.intact ?_ ?_ hi.locks ?_⟩ <;> simp

theorem Inv.invoke_new (k : Kind) (al : Allocator) (call : Call K V)
    (hpc : s.pc t = .idle last) (hmade : call.made = some val) :
    ∃ s1 a, s.newNode k al t call.key val = .ok (s1,a) ∧
      Quiet s (s1.goto t (.called call (some a))) (some t) ∧
      Inv hash idxSize (s1.goto t (.called call (some a))) := by
  obtain ⟨hepoch,hretires,hallocs⟩ : (s.thread t).epoch = none ∧ _ ∧ _ := by
    have h := hi.threads t
    rwa [hpc] at h
  obtain ⟨a,hfresh,ha⟩ : ∃ a, al.fresh s.mem.allocated = a ∧ a ∉ s.mem.allocated :=
    ⟨_,rfl,al.fresh_not_mem _⟩
  obtain ⟨m',hok,hmakes,hnew⟩ := pnew_outside (k := k) hi.tidy hepoch ha
  refine ⟨_,a,by simp only [State.newNode,hfresh,hok,bind,Except.bind,pure,Except.pure]; rfl,?_⟩
  have hkept : ∀ p ∈ s.mem.allocated,
      Kept s.mem s.content m' (update s.content a ⟨call.key,val⟩) p :=
    fun p hp => kept_makes hmakes hnew ha hp _
  have hq : Quiet s (State.goto { s with
      mem := m'
      content := update s.content a ⟨call.key,val⟩
      thread := update s.thread t
        { s.thread t with pendingAllocs := (s.thread t).pendingAllocs ++ [a] } } t
      (.called call (some a))) (some t) := by
    refine ⟨rfl,le_rfl,hmakes.tidy hi.tidy,?_,?_,?_⟩
    · intro u hu
      have hne : u ≠ t := fun he => hu (congrArg some he)
      exact ⟨update_of_ne hne _ _,update_of_ne hne _ _⟩
    · exact fun i p hp => hkept p (hi.nodes i p hp).allocated
    · exact fun u _ b hb => hkept b (hi.allocated_node hb)
  refine ⟨hq,hi.quiet hq hi.intact ?_ ?_ ?_ ?_⟩
  · intro u hu
    obtain rfl := some.inj hu
    simp only [State.goto,update_self]
    refine ⟨hepoch,hretires,by simp [hallocs],.node hmade hnew ?_⟩
    rw [update_self]
  · intro u hu b hb
    obtain rfl := some.inj hu
    simp only [State.goto,update_self,Pc.newNode,some.injEq] at hb
    subst hb
    refine ⟨fun u' _ h => ha (hi.allocated_node h),fun i h => ha (hi.nodes i _ h).allocated⟩
  · exact fun i u => hi.goto_locks hpc (by simp) (by simp) i u
  · intro u hu call' newNode' c h
    obtain rfl := some.inj hu
    simp [State.goto] at h

theorem Inv.invoke (k : Kind) (al : Allocator) (call : Call K V) (hpc : s.pc t = .idle last) :
    ∃ s', s.invoke k al t call = .ok s' ∧ Quiet s s' (some t) ∧ Inv hash idxSize s' := by
  have hplain : call.made = none → Quiet s (s.goto t (.called call none)) (some t) ∧
      Inv hash idxSize (s.goto t (.called call none)) := by
    intro hmade
    have hq : Quiet s (s.goto t (.called call none)) (some t) := by
      refine ⟨rfl,le_rfl,hi.tidy,?_,fun _ _ _ => .refl _ _ _,fun _ _ _ _ => .refl _ _ _⟩
      exact fun u hu => ⟨update_of_ne (fun he => hu (congrArg some he)) _ _,rfl⟩
    refine ⟨hq,hi.quiet hq hi.intact ?_ ?_ ?_ ?_⟩
    · intro u hu
      obtain rfl := some.inj hu
      have h := hi.threads u
      rw [hpc] at h
      obtain ⟨hepoch,hretires,hallocs⟩ := h
      simp only [State.goto,update_self]
      exact ⟨hepoch,hretires,hallocs,.without hmade⟩
    · intro u hu b hb
      obtain rfl := some.inj hu
      simp [State.goto,Pc.newNode] at hb
    · exact fun i u => hi.goto_locks hpc (by simp) (by simp) i u
    · intro u hu call' newNode' c h
      obtain rfl := some.inj hu
      simp [State.goto] at h
  cases call with
  | get | remove => exact ⟨_,rfl,hplain rfl⟩
  | put key val =>
    obtain ⟨s1,a,hok,h⟩ := hi.invoke_new k al (.put key val) hpc rfl
    rw [Call.key] at hok
    exact ⟨_,by simp only [State.invoke,hok,bind,Except.bind,pure,Except.pure],h⟩
  | insert key val =>
    obtain ⟨s1,a,hok,h⟩ := hi.invoke_new k al (.insert key val) hpc rfl
    rw [Call.key] at hok
    exact ⟨_,by simp only [State.invoke,hok,bind,Except.bind,pure,Except.pure],h⟩

omit hi in
omit [LinearOrder K] in
theorem Prepared.nodes {P : Addr → Prop} {content : Addr → Payload K V}
    (h : Prepared P content call newNode) :
    newNode.toList.length ≤ 1 ∧ newNode.toList.Nodup ∧ ∀ b ∈ newNode.toList, newNode = some b ∧ P b := by
  cases h with
  | without => simp
  | node _ state => simpa using state

theorem enter_ok (k : Kind) (id : Nat) (hpc : s.pc t = .called call newNode) :
    ∃ m' th', s.enter hash idxSize k t id call newNode = .ok ({ s with
        mem := m'
        lock := update s.lock (hash call.key % idxSize) (some t)
        thread := update s.thread t th' }.goto t (.inside call newNode s.epoch)) ∧
      Registers s.mem newNode.toList s.epoch id m' ∧ th'.pendingRetires = [] ∧
      if call.readOnly then th'.epoch = none ∧ th'.pendingAllocs = [] else th'.epoch = some s.epoch := by
  have h := hi.threads t
  rw [hpc] at h
  obtain ⟨hepoch,hretires,hallocs,hnode⟩ := h
  obtain ⟨-,hnodup,hnodes⟩ := hnode.nodes
  obtain ⟨m',th',hbegin,hr,hepoch',hretires',hallocs'⟩ : ∃ m' th',
      s.mem.call { s.thread t with nextId := id } (beginOp k · · s.epoch []) = .ok (m',th') ∧
        Registers s.mem newNode.toList s.epoch id m' ∧ th'.epoch = some s.epoch ∧
        th'.pendingRetires = [] ∧ th'.pendingAllocs = newNode.toList := by
    obtain ⟨m',hbegin,hr⟩ := begin_op (k := k) (m := s.mem) (c := s.epoch)
      { s.thread t with nextId := id } hepoch hretires hi.started (by rwa [hallocs])
      (by rw [hallocs]; exact fun b hb => (hnodes b hb).2)
    rw [hallocs] at hr
    exact ⟨m',_,hbegin,hr,rfl,hretires,hallocs⟩
  cases hread : call.readOnly with
  | false =>
    refine ⟨m',th',?_,hr,hretires',hepoch'⟩
    cases call with
    | get => cases hread
    | put | insert | remove => simp only [State.enter,hbegin,bind,Except.bind,pure,Except.pure]
  | true =>
    cases call with
    | put | insert | remove => cases hread
    | get =>
      cases hnode with
      | node made => cases made
      | without =>
        refine ⟨m',{ th' with epoch := none },?_,hr,hretires',rfl,hallocs'⟩
        have hend : m'.call th' (fun _ th => endReadonlyOp th) = .ok (m',{ th' with epoch := none }) := by
          simp [Memory.call,Memory.perform,endReadonlyOp,hepoch',hallocs',hretires',bind,Except.bind,
            pure,Except.pure]
        simp only [State.enter,hbegin,hend,bind,Except.bind,pure,Except.pure]

theorem Inv.enter (k : Kind) (id : Nat) (hpc : s.pc t = .called call newNode)
    (hunused : Unused s.mem id) (hlock : s.lock (hash call.key % idxSize) = none) :
    ∃ s', s.enter hash idxSize k t id call newNode = .ok s' ∧ Quiet s s' (some t) ∧
      Inv hash idxSize s' := by
  have h := hi.threads t
  rw [hpc] at h
  obtain ⟨-,-,-,hnode⟩ := h
  obtain ⟨hlength,-,hnodes⟩ := hnode.nodes
  obtain ⟨m',th',hok,hr,hretires,hepoch⟩ := enter_ok hi k id hpc
  have hkept : ∀ p, newNode ≠ some p → Kept s.mem s.content m' s.content p :=
    fun p hp => kept_registers hr hlength hunused fun hmem => hp (hnodes p hmem).1
  have hown : (s.pc t).newNode = newNode := by rw [hpc]; rfl
  refine ⟨_,hok,?_⟩
  have hq : Quiet s (State.goto { s with
      mem := m'
      lock := update s.lock (hash call.key % idxSize) (some t)
      thread := update s.thread t th' } t (.inside call newNode s.epoch)) (some t) := by
    refine ⟨rfl,le_rfl,hr.tidy hi.tidy,?_,?_,?_⟩
    · intro u hu
      have hne : u ≠ t := fun he => hu (congrArg some he)
      exact ⟨update_of_ne hne _ _,update_of_ne hne _ _⟩
    · exact fun i p hp => hkept p fun he => hi.unlinked t p i (hown.trans he) hp
    · exact fun u hu b hb => hkept b fun he => hu (congrArg some (hi.apart u t b hb (hown.trans he)))
  refine ⟨hq,hi.quiet hq hi.intact ?_ ?_ ?_ ?_⟩
  · intro u hu
    obtain rfl := some.inj hu
    simp only [State.goto,update_self]
    refine ⟨hi.started,le_rfl,hretires,hepoch,?_⟩
    cases hnode with
    | without made => exact .without made
    | node made state payload => exact .node made (current_registered hr hi.started state hunused) payload
  · intro u hu b hb
    obtain rfl := some.inj hu
    simp only [State.goto,update_self] at hb
    have hb' : (s.pc u).newNode = some b := hown.trans hb
    exact ⟨fun u' hne h => hne (hi.apart u' u b h hb'),fun i => hi.unlinked u b i hb'⟩
  · intro i u
    simp only [State.goto]
    by_cases hu : u = t
    · subst hu
      rw [update_self]
      by_cases hidx : hash call.key % idxSize = i
      · rw [hidx,update_self]
        exact ⟨fun _ => ⟨call,newNode,s.epoch,rfl,hidx⟩,fun _ => rfl⟩
      · rw [update_of_ne (Ne.symm hidx),hi.locks,hpc]
        constructor
        · rintro ⟨call',newNode',c,h,-⟩
          cases h
        · rintro ⟨call',newNode',c,h,hi'⟩
          cases h
          exact absurd hi' hidx
    · rw [update_of_ne hu,← hi.locks]
      by_cases hidx : hash call.key % idxSize = i
      · rw [← hidx,update_self,hlock]
        simp [Ne.symm hu]
      · rw [update_of_ne (Ne.symm hidx)]
  · intro u hu call' newNode' c h p hp
    obtain rfl := some.inj hu
    simp only [State.goto,update_self,Pc.inside.injEq] at h
    obtain ⟨-,-,rfl⟩ := h
    exact (hq.linked _ p hp).current _ (hi.nodes _ p hp)

def State.opened (hash : K → Nat) (idxSize : Nat) (s : State K V) (t : Nat) (call : Call K V) :
    Section K V :=
  ⟨s.mem,s.content,s.thread t,s.buckets (hash call.key % idxSize)⟩

theorem Inv.opened_fit (hpc : s.pc t = .inside call newNode c) :
    Fit hash idxSize (hash call.key % idxSize) c (s.opened hash idxSize t call) ∧
      ∀ a, newNode = some a → a ∉ s.buckets (hash call.key % idxSize) :=
  ⟨⟨hi.tidy,hi.under t call newNode c hpc,hi.place _,hi.sorted _⟩,
    fun a ha => hi.unlinked t a _ (by rw [hpc]; exact ha)⟩

theorem body_ok (al : Allocator) (hpc : s.pc t = .inside call newNode c) :
    ∃ w ret, Section.body al (s.opened hash idxSize t call) call newNode = .ok (w,ret) ∧
      Performs hash idxSize (hash call.key % idxSize) c call newNode (s.opened hash idxSize t call) w
        ret := by
  have h := hi.threads t
  rw [hpc] at h
  obtain ⟨hc,-,-,hepoch,hnode⟩ := h
  obtain ⟨hfit,hunlinked⟩ := hi.opened_fit hpc
  cases hnode with
  | without made =>
    cases call with
    | get => exact ⟨_,_,rfl,get_performs hfit⟩
    | put | insert => cases made
    | remove => exact remove_ok hfit hepoch
  | node made state payload =>
    cases call with
    | get | remove => cases made
    | put =>
      cases made
      exact put_ok hfit rfl hepoch hc ⟨state,payload,hunlinked _ rfl⟩
    | insert =>
      cases made
      exact insert_ok hfit rfl hepoch ⟨state,payload,hunlinked _ rfl⟩

theorem finish_ok (k : Kind) (al : Allocator) (hpc : s.pc t = .inside call newNode c) :
    ∃ w ret th', s.finish hash idxSize k al t call newNode = .ok ({ s with
        mem := w.mem
        content := w.content
        buckets := update s.buckets (hash call.key % idxSize) w.bucket
        lock := update s.lock (hash call.key % idxSize) none
        thread := update s.thread t th' }.goto t (.idle (some ret))) ∧
      Performs hash idxSize (hash call.key % idxSize) c call newNode (s.opened hash idxSize t call) w
        ret ∧
      th'.epoch = none ∧ th'.pendingRetires = [] ∧ th'.pendingAllocs = [] := by
  have h := hi.threads t
  rw [hpc] at h
  obtain ⟨-,-,hretires,hepoch,-⟩ := h
  obtain ⟨w,ret,hbody,hperforms⟩ := body_ok hi al hpc
  have hthread : w.thread = s.thread t := hperforms.thread
  rw [State.opened] at hbody
  cases hread : call.readOnly with
  | false =>
    rw [hread] at hepoch
    have hopen : w.thread.epoch = some c := by rwa [hthread]
    have hnone : w.thread.pendingRetires = [] := by rwa [hthread]
    have hend := end_op (k := k) (m := w.mem) hopen hnone
    refine ⟨w,ret,{ w.thread with epoch := none, pendingAllocs := [] },?_,hperforms,rfl,
      (congrArg Thread.pendingRetires hthread).trans hretires,rfl⟩
    cases call with
    | get => cases hread
    | put | insert | remove => simp only [State.finish,hbody,hend,bind,Except.bind,pure,Except.pure]
  | true =>
    rw [hread] at hepoch
    refine ⟨w,ret,w.thread,?_,hperforms,hthread ▸ hepoch.1,hthread ▸ hretires,hthread ▸ hepoch.2⟩
    cases call with
    | get => simp only [State.finish,hbody,bind,Except.bind,pure,Except.pure]
    | put | insert | remove => cases hread

def Answers (hash : K → Nat) (idxSize : Nat) (s s' : State K V) (call : Call K V) (ret : Result V) :
    Prop :=
  call.effect (contents hash idxSize s call.key) = (contents hash idxSize s' call.key,ret) ∧
    ∀ key ≠ call.key, contents hash idxSize s' key = contents hash idxSize s key

theorem Inv.finish (k : Kind) (al : Allocator) (hpc : s.pc t = .inside call newNode c) :
    ∃ s' ret, s.finish hash idxSize k al t call newNode = .ok s' ∧ Inv hash idxSize s' ∧
      s'.pc t = .idle (some ret) ∧ Answers hash idxSize s s' call ret := by
  obtain ⟨w,ret,th',hok,hperforms,hepoch,hretires,hallocs⟩ := finish_ok hi k al hpc
  have h := hi.threads t
  rw [hpc] at h
  obtain ⟨-,hle,-⟩ := h
  have hown : (s.pc t).newNode = newNode := by rw [hpc]; rfl
  have hout : ∀ j ≠ hash call.key % idxSize, ∀ p ∈ s.buckets j,
      p ∉ s.buckets (hash call.key % idxSize) ∧ newNode ≠ some p := by
    intro j hj p hp
    refine ⟨?_,fun he => hi.unlinked t p j (hown.trans he) hp⟩
    intro hp'
    exact hj ((hi.place j p hp).symm.trans (hi.place _ p hp'))
  have hlinked : ∀ j ≠ hash call.key % idxSize, ∀ p ∈ s.buckets j,
      Kept s.mem s.content w.mem w.content p := by
    intro j hj p hp
    obtain ⟨hbucket,hnode⟩ := hout j hj p hp
    exact hperforms.kept (hi.nodes j p hp).allocated hbucket hnode
  have hother : ∀ u ≠ t, ∀ a, (s.pc u).newNode = some a → newNode ≠ some a :=
    fun u hu a ha he => hu (hi.apart u t a ha (hown.trans he))
  refine ⟨_,ret,hok,⟨hi.intact,hi.started,hperforms.fit.tidy,?_,?_,?_,?_,?_,?_,?_,?_⟩,?_,?_,?_⟩
  · intro u
    simp only [State.goto]
    by_cases hu : u = t
    · subst hu
      rw [update_self,update_self]
      exact ⟨hepoch,hretires,hallocs⟩
    · rw [update_of_ne hu,update_of_ne hu]
      refine (hi.threads u).frame le_rfl ?_
      intro a ha
      exact hperforms.kept (hi.allocated_node ha) (hi.unlinked u a _ ha) (hother u hu a ha)
  · intro u u' a hu hu'
    simp only [State.goto] at hu hu'
    by_cases hut : u = t
    · subst hut
      rw [update_self] at hu
      cases hu
    · by_cases hut' : u' = t
      · subst hut'
        rw [update_self] at hu'
        cases hu'
      · rw [update_of_ne hut] at hu
        rw [update_of_ne hut'] at hu'
        exact hi.apart u u' a hu hu'
  · intro u a j hu
    simp only [State.goto] at hu ⊢
    by_cases hut : u = t
    · subst hut
      rw [update_self] at hu
      cases hu
    · rw [update_of_ne hut] at hu
      by_cases hj : j = hash call.key % idxSize
      · rw [hj,update_self]
        obtain ⟨-,-,hnot⟩ := hperforms.same a (hi.allocated_node hu) (hi.unlinked u a _ hu)
          (hother u hut a hu)
        exact hnot
      · rw [update_of_ne hj]
        exact hi.unlinked u a j hu
  · intro j u
    simp only [State.goto]
    by_cases hut : u = t
    · subst hut
      rw [update_self]
      by_cases hj : j = hash call.key % idxSize
      · rw [hj,update_self]
        simp
      · rw [update_of_ne hj,hi.locks,hpc]
        simp [Ne.symm hj]
    · rw [update_of_ne hut,← hi.locks]
      by_cases hj : j = hash call.key % idxSize
      · have hmine : s.lock j = some t := (hi.locks j t).mpr ⟨call,newNode,c,hpc,hj.symm⟩
        rw [hmine,hj,update_self]
        simp [Ne.symm hut]
      · rw [update_of_ne hj]
  · intro j p hp
    simp only [State.goto] at hp ⊢
    by_cases hj : j = hash call.key % idxSize
    · rw [hj,update_self] at hp
      exact (hperforms.fit.nodes p hp).later hle
    · rw [update_of_ne hj] at hp
      exact (hlinked j hj p hp).current _ (hi.nodes j p hp)
  · intro j p hp
    simp only [State.goto] at hp ⊢
    by_cases hj : j = hash call.key % idxSize
    · rw [hj,update_self] at hp
      exact (hperforms.fit.place p hp).trans hj.symm
    · rw [update_of_ne hj] at hp
      rw [(hlinked j hj p hp).content]
      exact hi.place j p hp
  · intro j
    simp only [State.goto]
    by_cases hj : j = hash call.key % idxSize
    · rw [hj,update_self]
      exact hperforms.fit.sorted
    · rw [update_of_ne hj]
      exact (hi.sorted j).congr fun p hp => by rw [(hlinked j hj p hp).content]
  · intro u call' newNode' c' hu p hp
    simp only [State.goto] at hu hp ⊢
    by_cases hut : u = t
    · subst hut
      rw [update_self] at hu
      cases hu
    · rw [update_of_ne hut] at hu
      have hj : hash call'.key % idxSize ≠ hash call.key % idxSize := by
        intro he
        have hmine := (hi.locks _ t).mpr ⟨call,newNode,c,hpc,rfl⟩
        have hyours := (hi.locks _ u).mpr ⟨call',newNode',c',hu,he⟩
        exact hut (some.inj (hyours.symm.trans hmine))
      rw [update_of_ne hj] at hp
      exact (hlinked _ hj p hp).current c' (hi.under u call' newNode' c' hu p hp)
  · exact update_self ..
  · simp only [contents,State.goto,update_self]
    exact hperforms.effect.1
  · intro key hkey
    simp only [contents,State.goto]
    by_cases hj : hash key % idxSize = hash call.key % idxSize
    · rw [hj,update_self]
      exact hperforms.effect.2 key hkey
    · rw [update_of_ne hj]
      exact lookup_congr fun p hp => (hlinked _ hj p hp).content

/-- What is promised of every state: the lists, the epochs under the locks, no fault, and the
payloads. -/
structure Sound (hash : K → Nat) (idxSize : Nat) (s : State K V) : Prop where
  sorted : ∀ i, Sorted s.content (s.buckets i)
  place : ∀ i, ∀ p ∈ s.buckets i, hash (s.content p).key % idxSize = i
  holders : ∀ i t, s.lock i = some t → ∃ call newNode c, s.pc t = .inside call newNode c ∧
    hash call.key % idxSize = i ∧ (call.readOnly = false → (s.thread t).epoch = some c) ∧
    ∀ p ∈ s.buckets i, (s.mem.heap p).epoch ≤ c
  unfailing : s.crashed = none
  newest : ∀ i, ∀ p ∈ s.buckets i, Current s.mem s.epoch p
  values : ∀ i, ∀ p ∈ s.buckets i,
    contents hash idxSize s (s.content p).key = some (s.content p).val

theorem Inv.sound : Sound hash idxSize s where
  sorted := hi.sorted
  place := hi.place
  holders := by
    intro i t hlock
    obtain ⟨call,newNode,c,hpc,hidx⟩ := (hi.locks i t).mp hlock
    refine ⟨call,newNode,c,hpc,hidx,?_,?_⟩
    · intro hread
      have h := hi.threads t
      rw [hpc] at h
      obtain ⟨-,-,-,hepoch,-⟩ := h
      rwa [hread] at hepoch
    · intro p hp
      exact (hi.under t call newNode c hpc p (hidx ▸ hp)).epoch
  unfailing := hi.intact
  newest := hi.nodes
  values := by
    intro i p hp
    obtain ⟨before,after,hlist⟩ := append_of_mem hp
    have hs := hi.sorted i
    rw [hlist] at hs
    rw [contents,hi.place i p hp,hlist]
    exact lookup_here rfl fun q hq => (hs.around.2.1 q hq).ne

/-- The end of a call is where it takes effect; the other steps are invisible. -/
def Refines (hash : K → Nat) (idxSize : Nat) (m : Move (State K V) (Act K V)) : Prop :=
  match m.act with
  | .finish t _ => ∃ call newNode c ret, m.pre.pc t = .inside call newNode c ∧
      m.post.pc t = .idle (some ret) ∧ Answers hash idxSize m.pre m.post call ret
  | _ => contents hash idxSize m.post = contents hash idxSize m.pre

theorem step_sound {act : Act K V} (h : step k hash idxSize s act = some s') :
    Inv hash idxSize s' ∧ Refines hash idxSize ⟨s,act,s'⟩ := by
  cases act with
  | invoke t call al =>
    simp only [step] at h
    split at h
    next hpc =>
      obtain ⟨s1,hok,hq,hinv⟩ := hi.invoke k al call hpc
      rw [hok] at h
      cases h
      exact ⟨hinv,hq.contents⟩
    next => cases h
  | enter t id =>
    simp only [step] at h
    split at h
    next hpc =>
      split at h
      next hguard =>
        obtain ⟨s1,hok,hq,hinv⟩ := hi.enter k id hpc hguard.1 hguard.2
        rw [hok] at h
        cases h
        exact ⟨hinv,hq.contents⟩
      next => cases h
    next => cases h
  | finish t al =>
    simp only [step] at h
    split at h
    next call newNode c _ hpc =>
      obtain ⟨s1,ret,hok,hinv,hret,hanswers⟩ := hi.finish k al hpc
      rw [hok] at h
      cases h
      exact ⟨hinv,call,newNode,c,ret,hpc,hret,hanswers⟩
    next => cases h
  | advance =>
    simp only [step] at h
    split at h
    next =>
      cases h
      obtain ⟨hq,hinv⟩ := hi.advance
      exact ⟨hinv,hq.contents⟩
    next => cases h
  | drain b c =>
    simp only [step] at h
    split at h
    next hguard =>
      cases h
      obtain ⟨hq,hinv⟩ := hi.drain hguard.2 c
      exact ⟨hinv,hq.contents⟩
    next => cases h

end

/-- The table is a map for all histories: every state of a run is sound, it starts empty, and
each step is a step of the map. -/
theorem table_is_map (k : Kind) (hash : K → Nat) (idxSize : Nat) (content : Addr → Payload K V)
    {ms : List (Move (State K V) (Act K V))}
    (run : Run (step k hash idxSize) (fun _ _ => True) (init content) ms s) :
    Sound hash idxSize s ∧ (∀ key, contents hash idxSize (init content) key = none) ∧
      ∀ m ∈ ms, Refines hash idxSize m := by
  have hinit := init_inv hash idxSize content
  have hkeep : ∀ (s : State K V) act s', Inv hash idxSize s → True →
      step k hash idxSize s act = some s' → Inv hash idxSize s' :=
    fun s act s' hi _ h => (step_sound hi h).1
  refine ⟨(run.invariant _ hinit hkeep).sound,fun _ => rfl,?_⟩
  intro m hm
  obtain ⟨hi,-,hstep⟩ := run.each _ hinit hkeep m hm
  exact (step_sound hi hstep).2

/-- Two threads write key 3 in different epochs while the lock of its bucket passes between
them; the copy that the first write left behind is freed, and the second value is read. -/
def story : List (Act Nat Nat) :=
  [.invoke 0 (.put 3 7) above,.invoke 1 (.put 3 8) above,.enter 0 0,.advance,.finish 0 above,
    .enter 1 5,.invoke 0 (.insert 1 9) above,.finish 1 above,.drain 1 4,.enter 0 1,.finish 0 above,
    .invoke 0 (.get 3) above,.enter 0 2,.advance,.finish 0 above]

theorem table_is_map_story : ∃ ms s,
    Run (step .blocking id 2) (fun _ _ => True) (init fun _ => ⟨0,0⟩) ms s ∧
      ms.map (·.act) = story ∧ s.pc 0 = .idle (some (.value (some 8))) ∧ Sound id 2 s := by
  obtain ⟨s,hplay,hread⟩ : ∃ s, play (step .blocking id 2) (init fun _ => ⟨0,0⟩) story = some s ∧
      s.pc 0 = .idle (some (.value (some 8))) := by
    obtain ⟨s,hplay,hread⟩ : ∃ s, play (step .blocking id 2) (init fun _ => ⟨0,0⟩) story = some s ∧
        decide (s.pc 0 = .idle (some (.value (some 8)))) = true :=
      map_eq_some_iff.mp (by decide +kernel)
    exact ⟨s,hplay,of_decide_eq_true hread⟩
  have run := Run.nil.trace hplay
  exact ⟨_,s,run,trace_acts hplay,hread,(table_is_map .blocking id 2 _ run).1⟩

end Montage.MontageHashTable
