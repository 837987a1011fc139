import Montage.MontageHashTable.History
import Montage.MontageHashTable.Snapshots
import Montage.MontageHashTable.Rebuild

namespace Montage.MontageHashTable
open Library Library.Maps Recoverable EpochSys Function List Option
open Recoverable.Memory hiding call
open ToBeFreed (Kind)
open Rebuild (lookup_some_iff)

variable {K V : Type} {s s' : State K V} {t c e i : Nat}

/-- The payloads in `S` hold the map `f`, one for each key. -/
@[mk_iff]
structure Holds (S : Addr → Prop) (content : Addr → Payload K V) (f : K → Option V) : Prop where
  unique : ∀ p q, S p → S q → (content p).key = (content q).key → p = q
  values : ∀ key v, f key = some v ↔ ∃ p, S p ∧ content p = ⟨key,v⟩

/-- The payloads that a crash leaves of the epochs up to `e`, apart from those of calls that have
not taken effect. -/
def Shown (s : State K V) (e : Nat) (p : Addr) : Prop :=
  Snapshot s.mem e p ∧ ∀ t, (s.pc t).newNode ≠ some p

section
variable {S S' N : Addr → Prop} {content content' : Addr → Payload K V} {f f' : K → Option V}

theorem Holds.congr (h : Holds S content f) (hS : ∀ p, S' p ↔ S p)
    (hc : ∀ p, S p → content' p = content p) : Holds S' content' f := by
  grind [holds_iff]

/-- The payloads of one key are exchanged. -/
theorem Holds.set (h : Holds S content f) (key : K)
    (hS : ∀ p, S' p ↔ S p ∧ (content p).key ≠ key ∨ N p)
    (hc : ∀ p, S p → (content p).key ≠ key → content' p = content p)
    (hN : ∀ p, N p → (content' p).key = key) (hone : ∀ p q, N p → N q → p = q)
    (hf : ∀ v, f' key = some v ↔ ∃ p, N p ∧ content' p = ⟨key,v⟩)
    (hother : ∀ k ≠ key, f' k = f k) : Holds S' content' f' := by
  grind [holds_iff]

end

theorem shown_update {pc : Pc K V} {p : Addr} (hpc : s'.pc = update s.pc t pc) :
    (Shown s e p ↔ Snapshot s.mem e p ∧ (s.pc t).newNode ≠ some p ∧
      ∀ u ≠ t, (s.pc u).newNode ≠ some p) ∧
    (Shown s' e p ↔ Snapshot s'.mem e p ∧ pc.newNode ≠ some p ∧
      ∀ u ≠ t, (s.pc u).newNode ≠ some p) := by
  have hpc : ∀ u, (s'.pc u).newNode = if u = t then pc.newNode else (s.pc u).newNode := by
    intro u
    rw [hpc,update_apply]
    split <;> rfl
  grind [Shown]

variable [LinearOrder K] {hash : K → Nat} {idxSize : Nat} {k : Kind} {call : Call K V}
  {newNode : Option Addr} {al : Allocator} {act : Act K V} {ds : List (Done K V)} {w : Section K V}
  {ret : Result V}

structure Mirrors (e : Nat) (ds : List (Done K V)) (s : State K V) : Prop where
  versions : Versions s.mem
  own : ∀ t call a c, s.pc t = .inside call (some a) c → (s.mem.heap a).epoch = c
  holds : Holds (Shown s e) s.content (valueAfter (retained e ds))

theorem body_shows (hi : Inv hash idxSize s) (hv : Versions s.mem)
    (hpc : s.pc t = .inside call newNode c)
    (hbody : Section.body al (s.opened hash idxSize t call) call newNode = .ok (w,ret)) :
    Shows c call.key newNode (s.opened hash idxSize t call) w := by
  have h := hi.threads t
  rw [hpc] at h
  obtain ⟨hc,-,-,hepoch,hnode⟩ := h
  obtain ⟨hfit,hunlinked⟩ := hi.opened_fit hpc
  cases hnode with
  | without made =>
    cases call with
    | get =>
      cases hbody
      exact unchanged_shows hfit hv
    | put | insert => cases made
    | remove => exact remove_shows hfit hv hepoch hbody
  | node made state payload =>
    cases call with
    | get | remove => cases made
    | put =>
      cases made
      exact put_shows hfit hv hepoch hc ⟨state,payload,hunlinked _ rfl⟩ hbody
    | insert =>
      cases made
      exact insert_shows hfit hv hepoch ⟨state,payload,hunlinked _ rfl⟩ hbody

/-- The epoch waits for the calls that began before it. A block is freed when a newer one of its id
is durable, an anti-node when it is the last block of its id. -/
def Orderly (s : State K V) : Act K V → Prop
  | .advance => ∀ t call newNode c, s.pc t = .inside call newNode c → call.readOnly ∨ s.epoch ≤ c
  | .drain b _ => (∃ x ∈ s.mem.allocated, (s.mem.heap x).id = (s.mem.heap b).id ∧
      (s.mem.heap b).epoch < (s.mem.heap x).epoch ∧ (s.mem.heap x).epoch + 2 ≤ s.epoch) ∨
    (s.mem.heap b).blktype = .delete ∧
      ∀ x ∈ s.mem.allocated, x ≠ b → (s.mem.heap x).id ≠ (s.mem.heap b).id
  | _ => True

section
variable (hi : Inv hash idxSize s) (hm : Mirrors e ds s)
include hi hm

omit hi in
theorem Mirrors.called (hmem : s'.mem = s.mem) (hcontent : s'.content = s.content)
    (hpc : s'.pc = update s.pc t (.called call none)) (hidle : s.pc t = .idle last) :
    Mirrors e ds s' := by
  refine ⟨hmem ▸ hm.versions,?_,hm.holds.congr ?_ (by simp [hcontent])⟩
  · intro u call' b c'
    have := hm.own u call' b c'
    have := congrFun hpc u
    grind [update_apply]
  · intro p
    have := shown_update (e := e) (p := p) hpc
    grind [Pc.newNode]

theorem Mirrors.invokes (h : Becomes hash idxSize s (.invoke t call al) s') : Mirrors e ds s' := by
  cases h with | invoke hidle _ hpc hnode =>
  rcases hnode with ⟨rfl,hmem,hcontent⟩ | ⟨a,v,rfl,ha,hmakes,hu,hcontent⟩
  · exact hm.called hmem hcontent hpc hidle
  have hv := hm.versions
  have hall := hmakes.allocated
  have hheap := hmakes.heap
  have hepoch := hu.epoch
  have htype := hu.blktype
  refine ⟨by grind [versions_iff,nullEpoch],?_,hm.holds.congr ?_ ?_⟩
  · intro u call' b c' hu'
    have := hi.allocated_node (t := u) (a := b)
    have := hm.own u call' b c'
    have := congrFun hpc u
    grind [Pc.newNode,update_apply]
  · intro p
    have := shown_update (e := e) (p := p) hpc
    grind [snapshot_iff,nullEpoch,Pc.newNode]
  · intro p hp
    have := hp.1.allocated
    have := congrFun hcontent p
    grind [update_apply]

theorem Mirrors.enters (h : Becomes hash idxSize s (.enter t i) s') : Mirrors e ds s' := by
  cases h with | enter hpc hunused hr hcontent _ hpc' =>
  have h := hi.threads t
  rw [hpc] at h
  obtain ⟨-,-,-,hnode⟩ := h
  obtain ⟨hlength,-,hnodes⟩ := hnode.nodes
  have hnodes := fun b hb => (hnodes b hb).2.epoch
  have hv := hm.versions
  have hall := hr.allocated
  have hheap := hr.heap
  have hblocks := hr.blocks
  have hstarted := hi.started
  refine ⟨by grind [versions_iff,nullEpoch,Unused],?_,hm.holds.congr ?_ (by simp [hcontent])⟩
  · intro u call' b c' hu
    have := hi.apart u t b
    have := hm.own u call' b c'
    have := congrFun hpc' u
    grind [Pc.newNode,update_apply]
  · intro p
    have := shown_update (e := e) (p := p) hpc'
    grind [snapshot_iff,nullEpoch,Pc.newNode,Unused]

theorem Mirrors.drains {b : Addr} (he : s.epoch ≤ e + 2) (hok : Orderly s (.drain b c))
    (h : Becomes hash idxSize s (.drain b c) s') : Mirrors e ds s' := by
  cases h with | drain hb =>
  simp only [Orderly] at hok
  have hall : (s.mem.drain b c).allocated = s.mem.allocated.erase b := by
    unfold drain deletePblk
    split <;> rfl
  have hheap := fun y hy => (drain_same (c := c) (b := b) (a := y) hi.tidy hy).heap
  have hv := hm.versions
  refine ⟨by grind [versions_iff],?_,hm.holds.congr ?_ fun _ _ => rfl⟩
  · intro u call' a c' hu
    have ha : a ≠ b := by
      rintro rfl
      have h := hi.threads u
      rw [hu] at h
      obtain ⟨-,-,-,-,hnode⟩ := h
      cases hnode with
      | node _ state => exact state.kept hb
    exact hheap a ha ▸ hm.own u call' a c' hu
  · intro p
    refine and_congr_left fun _ => ?_
    grind [snapshot_iff]

/-- The call takes effect: up to its epoch its key has the value that the table has for it, and
before its epoch nothing is to be seen of it. -/
theorem Mirrors.finishes (hr : Recalls hash idxSize ds s)
    (h : Becomes hash idxSize s (.finish t al) s')
    (hr' : Recalls hash idxSize (ds ++ (done ⟨s,.finish t al,s'⟩).toList) s') :
    Mirrors e (ds ++ (done ⟨s,.finish t al,s'⟩).toList) s' := by
  cases h with | finish hin hbody hperforms hmem hcontent hbucket _ hpc =>
  rename_i call newNode c w ret _
  obtain ⟨d,hdone,hd⟩ : ∃ d, done ⟨s,.finish t al,s'⟩ = some d ∧ d = ⟨call,ret,c⟩ := by
    simp [done,hin,hpc]
  rw [hdone] at hr' ⊢
  rw [toList_some] at hr' ⊢
  have hshows := body_shows hi hm.versions hin hbody
  have hnode : (s.pc t).newNode = newNode := by rw [hin]; rfl
  -- the nodes of the other calls are neither in the bucket nor this call's
  have hothers : ∀ u ≠ t, ∀ a, (s.pc u).newNode = some a →
      Same s.mem w.mem a ∧ a ∉ w.bucket := by
    intro u hu a ha
    obtain ⟨hsame,-,hnot⟩ := hperforms.same a (hi.allocated_node ha) (hi.unlinked u a _ ha)
      fun he => hu (hi.apart u t a ha (hnode.trans he))
    exact ⟨hsame,hnot⟩
  have hshown := fun p => shown_update (e := e) (p := p) hpc
  refine ⟨hmem ▸ hshows.versions,?_,?_⟩
  · intro u call' a c' hu
    have hsame := fun hut ha => (hothers u hut a ha).1.heap
    have := hm.own u call' a c'
    have := congrFun hpc u
    grind [Pc.newNode,update_apply]
  by_cases hce : c ≤ e
  · have hkey : ∀ ds' : List (Done K V), (∀ d' ∈ ds', d'.call.key = call.key → d'.epoch ≤ c) →
        valueAfter (retained e ds') call.key = valueAfter ds' call.key :=
      fun ds' h => value_after_retained fun d' hd' hk => (h d' hd' hk).trans hce
    have hpast : ∀ d' ∈ ds, d'.call.key = call.key → d'.epoch ≤ c :=
      fun d' hd' hk => hr.under t call newNode c hin d' hd' (by rw [hk])
    have hvalue := hkey ds hpast
    rw [← hr.contents] at hvalue
    have hkeyed : ∀ p, Keyed (s.opened hash idxSize t call) call.key p → Shown s e p :=
      fun p hp => ⟨(hi.under t call newNode c hin p hp.1).snapshot hce,
        fun u hu => hi.unlinked u p _ hu hp.1⟩
    -- the map has the key, so the bucket has it
    have hshow : ∀ p, Shown s e p → (s.content p).key = call.key →
        Keyed (s.opened hash idxSize t call) call.key p := by
      intro p hp hpk
      have hv := (hm.holds.values call.key _).mpr ⟨p,hp,by rw [← hpk]⟩
      rw [hvalue] at hv
      obtain ⟨q,hq,hqv⟩ := (lookup_some_iff (hi.sorted _)).mp hv
      have hqk : Keyed (s.opened hash idxSize t call) call.key q := ⟨hq,congrArg Payload.key hqv⟩
      exact hm.holds.unique p q hp (hkeyed q hqk) (hpk.trans hqk.2.symm) ▸ hqk
    refine hm.holds.set (N := Keyed w call.key) call.key ?_ ?_ (fun p hp => hcontent ▸ hp.2) ?_ ?_ ?_
    · intro p
      have hlate : Snapshot s'.mem e p ↔ _ := hmem ▸ hshows.late e p hce
      have hopened : Keyed (s.opened hash idxSize t call) call.key p → (s.content p).key = call.key :=
        And.right
      have hmem : (s.opened hash idxSize t call).mem = s.mem := rfl
      grind [Keyed,Pc.newNode]
    · intro p hp hpk
      rw [hcontent]
      exact hshows.content p hp.1.allocated (.inl fun hk => hpk hk.2)
    · intro p q hp hq
      obtain ⟨before,after,hlist⟩ := append_of_mem hp.1
      have := keyed_equal (hlist ▸ hperforms.fit.sorted) hp.2 q
      grind [Keyed]
    · intro v
      have hnow : valueAfter (retained e (ds ++ [d])) call.key = contents hash idxSize s' call.key := by
        rw [hkey,hr'.contents]
        grind
      rw [hnow,contents,hbucket,hcontent,lookup_some_iff hperforms.fit.sorted]
      grind [Keyed]
    · intro key hne
      rw [retained,filter_append,filter_cons_of_pos (by simpa [hd] using hce),filter_nil,
        value_after_snoc,if_neg (by rw [hd]; exact Ne.symm hne)]
      rfl
  · have hepoch : ∀ p, Snapshot s.mem e p → (s.mem.heap p).epoch ≠ c := by
      intro p hp heq
      exact hce (heq ▸ hp.epoch)
    have hown := fun a => hm.own t call a c
    rw [retained,filter_append,filter_cons_of_neg (by simpa [hd] using hce),filter_nil,append_nil]
    refine hm.holds.congr ?_ ?_
    · intro p
      have hearly : Snapshot s'.mem e p ↔ Snapshot s.mem e p :=
        hmem ▸ hshows.early e p (lt_of_not_ge hce)
      grind [Pc.newNode]
    · intro p hp
      rw [hcontent]
      exact hshows.content p hp.1.allocated (.inr (hepoch p hp.1))

theorem Mirrors.step (hr : Recalls hash idxSize ds s) (hok : Orderly s act) (he : s.epoch ≤ e + 2)
    (h : step k hash idxSize s act = some s') :
    Mirrors e (ds ++ (done ⟨s,act,s'⟩).toList) s' := by
  have hr' := hr.step hi h
  have h := step_becomes hi h
  cases act with
  | finish => exact hm.finishes hi hr h hr'
  | invoke => simpa [done] using hm.invokes hi h
  | enter => simpa [done] using hm.enters hi h
  | drain => simpa [done] using hm.drains hi he hok h
  | advance =>
    cases h
    simpa [done] using ⟨hm.versions,hm.own,hm.holds⟩

end

/-- What a run leaves for every cutoff that is not long past. -/
theorem run_mirrors {content : Addr → Payload K V} {ms : List (Move (State K V) (Act K V))}
    (run : Run (step k hash idxSize) Orderly (init content) ms s) (e : Nat) (he : s.epoch ≤ e + 2) :
    Mirrors e (history ms) s := by
  induction run with
  | nil =>
    have hnone : ∀ p, ¬Shown (init content) e p := fun p hp => absurd hp.1.allocated (by simp [init])
    exact ⟨⟨by simp [init],by simp [init]⟩,by simp [init],by simp [hnone],
      by simp [hnone,history,retained,valueAfter]⟩
  | snoc run hok next ih =>
    obtain ⟨hi,hr⟩ := run_recalls run
    have hle := (step_inside hi next).1.trans he
    rw [history_snoc]
    exact (ih hle).step hi hr hok hle next

end Montage.MontageHashTable
