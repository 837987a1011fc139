import Montage.ToBeFreed.Thread

namespace Montage.ToBeFreed
open Library Function Option

/-- In a log that has its latest entry first, every deallocation of `a` comes after one
of `b`. -/
def Precedes (b a : Addr) : List Freed → Prop
  | [] => True
  | x :: xs => (x.blk = a → ∃ y ∈ xs, y.blk = b) ∧ Precedes b a xs

/-- A payload `b` retired in epoch `r` is deallocated from epoch `r+2` on, and its
anti-node `a` not before it. -/
structure Safe (b a : Addr) (r : Nat) (log : List Freed) : Prop where
  durable : ∀ x ∈ log, x.blk = b → r + 2 ≤ x.epoch
  order : Precedes b a log

/-- The retirement of `b` in an operation of epoch `r`, with `a` for the anti-node:
`retire_pblk` of the blocking system at `end_op`, and `prepare_retire_pblk` followed by
`retire_pblk` of the nonblocking one. -/
def retire (k : Kind) (h : Heap) (a b : Addr) (r tid sn : Nat) : Except Fault Heap :=
  match k with
  | .blocking => do return writes h (← EpochSys.retirePblk h a b r)
  | .nonblocking => do
    let h' := writes h (← NbEpochSys.prepareRetirePblk h a b r tid sn)
    return writes h' (← NbEpochSys.retirePblk h' b r (some a))

variable {k : Kind} {th th' : Thread} {a b f : Addr} {c r tid sn : Nat} {h h₁ h₂ : Heap}

theorem retire_spec (hret : retire k h a b r tid sn = .ok h₁) (hab : a ≠ b)
    (hanti : (h₁ b).retire = some a) :
    (h b).epoch ≤ r ∧ (h₁ b).epoch = (h b).epoch ∧ (h₁ a).epoch = r := by
  cases k with
  | blocking =>
    obtain ⟨is,his,hret⟩ := of_bind_ok hret
    cases hret
    rcases EpochSys.retire_pblk_ok his with ⟨heq,rfl⟩ | ⟨hlt,rfl⟩
    · -- retired in the epoch of its creation, the block itself became the anti-node
      obtain ⟨hnone,-⟩ := of_check_ok his
      simp_all [writes,Instr.write]
    · refine ⟨Nat.le_of_lt hlt,?_,?_⟩
      · simp [writes,Instr.write,EpochSys.copyPblk,hab.symm]
      · simp [writes,Instr.write]
  | nonblocking =>
    obtain ⟨is,his,hret⟩ := of_bind_ok hret
    obtain ⟨is',his',hret⟩ := of_bind_ok hret
    obtain ⟨hle,rfl⟩ := NbEpochSys.prepare_retire_pblk_ok his
    obtain ⟨_,heq,rfl⟩ := NbEpochSys.retire_pblk_ok his'
    cases heq
    cases hret
    refine ⟨hle,?_,?_⟩
    · simp [writes,Instr.write,EpochSys.copyPblk,hab.symm]
    · simp [writes,Instr.write,hab]

theorem reclaim_spec (hanti : (h b).retire = some a) (hb : (h b).epoch ≤ c)
    (ha : (h a).epoch ≤ c) (hrec : EpochSys.reclaimPblk h f b c = .ok is) :
    (c ≤ (h b).epoch + 1 ∧ is = [.registerFree a (c + 1),.registerFree b c]) ∨
    ((h b).epoch + 1 < c ∧ is = [.registerFree a c,.setEpoch b nullEpoch,.deallocate b,
      .registerPersistRaw b c]) := by
  simp only [EpochSys.reclaimPblk,hanti] at hrec
  obtain ⟨hc,hrec⟩ := of_check_ok hrec
  rw [if_neg (by omega),if_neg (by omega)] at hrec
  split at hrec <;> cases hrec
  · exact .inr ⟨by omega,by simp [EpochSys.deletePblk,hc]⟩
  · exact .inl ⟨by omega,rfl⟩

/-- The payload waits under the epoch `c` it was reclaimed in, its anti-node one label
later, and neither has been deallocated. -/
structure Pending (b a : Addr) (c : Nat) (th : Thread) : Prop where
  payload : ∃ w, th.Waits w ∧ w.blk = b
  payloadLabel : ∀ w, th.Waits w → w.blk = b → w.label = c
  anti : ∃ w, th.Waits w ∧ w.blk = a
  antiLabel : ∀ w, th.Waits w → w.blk = a → w.label = c + 1
  unfreed : ∀ x ∈ th.freed, x.blk ≠ b ∧ x.blk ≠ a

structure Gone (b a : Addr) (r : Nat) (th : Thread) : Prop where
  payload : ∃ x ∈ th.freed, x.blk = b
  now : r + 2 ≤ th.now
  safe : Safe b a r th.freed

theorem precedes_of_absent (log : List Freed) (hlog : ∀ x ∈ log, x.blk ≠ a) :
    Precedes b a log := by
  induction log with
  | nil => trivial
  | cons x _ ih =>
    refine ⟨fun hx => absurd hx (hlog x (by simp)),ih ?_⟩
    exact fun y hy => hlog y (by simp [hy])

theorem Pending.safe (hp : Pending b a c th) : Safe b a r th.freed where
  durable := fun x hx hb => absurd hb (hp.unfreed x hx).1
  order := precedes_of_absent _ fun x hx => (hp.unfreed x hx).2

theorem Gone.deallocate (hg : Gone b a r th) (hop : th.op = some c) (x : Addr) :
    Gone b a r (deallocate th x c) := by
  have hnow : r + 2 ≤ c := by simpa [Thread.now,hop] using hg.now
  obtain ⟨y,hy,hyb⟩ := hg.payload
  refine ⟨⟨y,List.mem_cons_of_mem _ hy,hyb⟩,hg.now,?_,?_,hg.safe.order⟩
  · intro z hz hzb
    rcases List.mem_cons.mp hz with heq | hz
    · rw [heq]; exact hnow
    · exact hg.safe.durable z hz hzb
  · exact fun _ => ⟨y,hy,hyb⟩

theorem Gone.frame (hg : Gone b a r th) (hfreed : th'.freed = th.freed) (hnow : th.now ≤ th'.now) :
    Gone b a r th' := by
  refine ⟨?_,Nat.le_trans hg.now hnow,?_⟩
  · rw [hfreed]; exact hg.payload
  · rw [hfreed]; exact hg.safe

theorem Pending.frame (hp : Pending b a c th) (hbuckets : th'.buckets = th.buckets)
    (hfreed : th'.freed = th.freed) : Pending b a c th' := by
  have hwaits : ∀ w, th'.Waits w ↔ th.Waits w := by
    intro w
    rw [Thread.Waits,Thread.Waits,hbuckets]
  constructor
  · simpa only [hwaits] using hp.payload
  · simpa only [hwaits] using hp.payloadLabel
  · simpa only [hwaits] using hp.anti
  · simpa only [hwaits] using hp.antiLabel
  · rw [hfreed]; exact hp.unfreed

theorem Pending.register_free (hp : Pending b a c th) (hx : x ≠ b ∧ x ≠ a) :
    Pending b a c (registerFree th x l) := by
  have hback : ∀ w, (registerFree th x l).Waits w → w.blk = x ∨ th.Waits w := by
    intro w hwaits
    obtain ⟨j,hw⟩ := hwaits
    rcases mem_register_free.mp hw with ⟨heq,_⟩ | hw
    · exact .inl (by rw [heq])
    · exact .inr ⟨j,hw⟩
  have hforth : ∀ w, th.Waits w → (registerFree th x l).Waits w := by
    intro w hwaits
    obtain ⟨j,hw⟩ := hwaits
    exact ⟨j,mem_register_free.mpr (.inr hw)⟩
  obtain ⟨wb,hwb,hblk⟩ := hp.payload
  obtain ⟨wa,hwa,hanti⟩ := hp.anti
  refine ⟨⟨wb,hforth wb hwb,hblk⟩,?_,⟨wa,hforth wa hwa,hanti⟩,?_,hp.unfreed⟩
  · intro w hw heq
    rcases hback w hw with hx' | hw
    · exact absurd (hx'.symm.trans heq) hx.1
    · exact hp.payloadLabel w hw heq
  · intro w hw heq
    rcases hback w hw with hx' | hw
    · exact absurd (hx'.symm.trans heq) hx.2
    · exact hp.antiLabel w hw heq

theorem Pending.deallocate (hp : Pending b a c th) (hx : x ≠ b ∧ x ≠ a) :
    Pending b a c (deallocate th x c') := by
  refine ⟨hp.payload,hp.payloadLabel,hp.anti,hp.antiLabel,?_⟩
  intro y hy
  rcases List.mem_cons.mp hy with heq | hy
  · rw [heq]; exact hx
  · exact hp.unfreed y hy

theorem Pending.pop (hp : Pending b a c th) (hbucket : th.buckets j = w :: ws)
    (hw : w.blk ≠ b ∧ w.blk ≠ a) :
    Pending b a c { th with buckets := update th.buckets j ws } := by
  let popped : Thread := { th with buckets := update th.buckets j ws }
  have hback : ∀ v, popped.Waits v → th.Waits v := by
    intro v hwaits
    obtain ⟨i,hv⟩ := hwaits
    refine ⟨i,?_⟩
    by_cases hi : i = j
    · subst i
      rw [hbucket]
      exact List.mem_cons_of_mem _ (by simpa [popped] using hv)
    · simpa [popped,hi] using hv
  have hforth : ∀ v, v.blk ≠ w.blk → th.Waits v → popped.Waits v := by
    intro v hne hwaits
    obtain ⟨i,hv⟩ := hwaits
    refine ⟨i,?_⟩
    by_cases hi : i = j
    · subst i
      rw [hbucket] at hv
      rcases List.mem_cons.mp hv with heq | hv
      · exact absurd (congrArg Waiting.blk heq) hne
      · simpa [popped] using hv
    · simpa [popped,hi] using hv
  obtain ⟨wb,hwb,hblk⟩ := hp.payload
  obtain ⟨wa,hwa,hanti⟩ := hp.anti
  exact ⟨⟨wb,hforth wb (by rw [hblk]; exact hw.1.symm) hwb,hblk⟩,
    fun v hv => hp.payloadLabel v (hback v hv),
    ⟨wa,hforth wa (by rw [hanti]; exact hw.2.symm) hwa,hanti⟩,
    fun v hv => hp.antiLabel v (hback v hv),hp.unfreed⟩

/-- After the reclamation in epoch `c` the payload waits for its turn or is gone. -/
def Follows (b a : Addr) (r c : Nat) (th : Thread) : Prop :=
  Pending b a c th ∨ Gone b a r th

theorem free_on_new_epoch_frame (hop : th.op = none) (hle : th.lastEpoch ≤ e) :
    (freeOnNewEpoch k th e).buckets = th.buckets ∧ (freeOnNewEpoch k th e).freed = th.freed ∧
      th.now ≤ (freeOnNewEpoch k th e).now := by
  unfold freeOnNewEpoch
  split <;> simp [Thread.now,hop,hle]

theorem step_freed (hs : step k th act = some th') (hx : x ∈ th.freed) : x ∈ th'.freed := by
  obtain ⟨e,-,hop,-,hle,-,rfl⟩ | ⟨e,i,rest,-,-,-,rfl⟩ | ⟨e,i,-,-,-,hins⟩ | ⟨e,-,-,-,rfl⟩ :=
    step_cases hs
  · rw [(free_on_new_epoch_frame hop hle).2.1]
    exact hx
  · unfold helpFreeLocal
    split
    next => exact hx
    next => exact List.mem_cons_of_mem _ hx
  · unfold stepInstr at hins
    split at hins
    · split at hins
      next => cases hins; exact hx
      next => cases hins
    · split at hins
      next => cases hins; exact List.mem_cons_of_mem _ hx
      next => cases hins
    · cases hins; exact hx
  · exact hx

theorem register_free_waits : (registerFree th b l).Waits ⟨b,l⟩ :=
  ⟨l % epochWindow,mem_register_free.mpr (.inl ⟨rfl,rfl⟩)⟩

section
variable (hi : Inv k th)
include hi

theorem help_free_local_follows (hf : Follows b a r c th) (hab : a ≠ b)
    (hrc : r ≤ c) (hop : th.op = some e) (htodo : th.todo = i :: rest) :
    Follows b a r c (helpFreeLocal th i e rest) := by
  unfold helpFreeLocal
  split
  next =>
    rcases hf with hp | hg
    · exact .inl (hp.frame rfl rfl)
    · exact .inr (hg.frame rfl (Nat.le_refl _))
  next w ws hbucket =>
    rcases hf with hp | hg
    · have hlabel : w.label = i := hi.head_bucket hop htodo (by simp [hbucket])
      have hwaits : th.Waits w := ⟨_,by rw [hbucket]; simp⟩
      by_cases hwb : w.blk = b
      · have hc := hp.payloadLabel w hwaits hwb
        have hdue := hi.due e hop i (by simp [htodo])
        refine .inr ⟨⟨_,List.mem_cons_self,hwb⟩,?_,?_,?_⟩
        · simp only [deallocate,Thread.now,hop,getD_some]
          omega
        · intro x hx hxb
          rcases List.mem_cons.mp hx with heq | hx
          · rw [heq]; simp only; omega
          · exact absurd hxb (hp.unfreed x hx).1
        · exact ⟨fun hwa => absurd (hwa.symm.trans hwb) hab,hp.safe.order (r := r)⟩
      · by_cases hwa : w.blk = a
        · -- the payload would still wait under a label that has been dealt with
          obtain ⟨wb,hwb',hblk⟩ := hp.payload
          have h1 := hi.head_le hop htodo hwb'
          have h2 := hp.payloadLabel wb hwb' hblk
          have h3 := hp.antiLabel w hwaits hwa
          omega
        · exact .inl ((hp.pop hbucket ⟨hwb,hwa⟩).deallocate ⟨hwb,hwa⟩)
    · have hpop : Gone b a r { th with
          buckets := update th.buckets (i % epochWindow) ws } :=
        hg.frame rfl (Nat.le_refl _)
      exact .inr (hpop.deallocate hop _)

theorem Pending.other (hp : Pending b a c th) (hx : th.waits x = false) : x ≠ b ∧ x ≠ a := by
  constructor
  · intro heq
    have := (hi.waits_iff x).mpr (heq ▸ hp.payload)
    simp [hx] at this
  · intro heq
    have := (hi.waits_iff x).mpr (heq ▸ hp.anti)
    simp [hx] at this

theorem step_instr_follows (hf : Follows b a r c th) (hop : th.op = some e)
    (hs : stepInstr th e ins = some th') : Follows b a r c th' := by
  unfold stepInstr at hs
  split at hs
  · split at hs
    next hguard =>
      cases hs
      rcases hf with hp | hg
      · exact .inl (hp.register_free (hp.other hi hguard.1))
      · exact .inr (hg.frame rfl (Nat.le_refl _))
    next => cases hs
  · split at hs
    next hguard =>
      cases hs
      rcases hf with hp | hg
      · exact .inl (hp.deallocate (hp.other hi hguard))
      · exact .inr (hg.deallocate hop _)
    next => cases hs
  · cases hs; exact hf

theorem finish_now (hop : th.op = some e) : (finish k th e).now = th.now := by
  cases k with
  | blocking => simpa [finish,Thread.now,hop] using (hi.epoch e hop).2.2 rfl
  | nonblocking => simp [finish,Thread.now,hop]

theorem step_follows (hf : Follows b a r c th) (hab : a ≠ b) (hrc : r ≤ c)
    (hs : step k th act = some th') : Follows b a r c th' := by
  obtain ⟨e,-,hop,-,hle,-,rfl⟩ | ⟨e,i,rest,-,hop,htodo,rfl⟩ | ⟨e,i,-,hop,-,hins⟩ |
    ⟨e,-,hop,-,rfl⟩ := step_cases hs
  · obtain ⟨hbuckets,hfreed,hnow⟩ := free_on_new_epoch_frame (k := k) hop hle
    rcases hf with hp | hg
    · exact .inl (hp.frame hbuckets hfreed)
    · exact .inr (hg.frame hfreed hnow)
  · exact help_free_local_follows hi hf hab hrc hop htodo
  · exact step_instr_follows hi hf hop hins
  · rcases hf with hp | hg
    · exact .inl (hp.frame rfl rfl)
    · exact .inr (hg.frame rfl (Nat.le_of_eq (finish_now hi hop).symm))

theorem reclaim_deferred (hop : th.op = some c) (hfreed : th.freed = [])
    (hab : a ≠ b) (hplay : play (step k) th
      ([.registerFree a (c + 1),.registerFree b c].map Act.instr) = some th') :
    Pending b a c th' := by
  simp only [List.map,play,bind_eq_some_iff,some.injEq] at hplay
  obtain ⟨th1,hs1,th2,hs2,rfl⟩ := hplay
  obtain ⟨htodo,ha,hth1⟩ : th.todo = [] ∧ th.waits a = false ∧
      th1 = registerFree th a (c + 1) := by
    cases htodo : th.todo <;> simp [step,stepWith,stepInstr,hop,htodo] at hs1 ⊢
    exact ⟨hs1.1,hs1.2.symm⟩
  subst hth1
  have hi1 : Inv k (registerFree th a (c + 1)) := step_inv hi hs1
  obtain ⟨hb,hth2⟩ : (registerFree th a (c + 1)).waits b = false ∧
      th2 = registerFree (registerFree th a (c + 1)) b c := by
    simp [step,stepWith,stepInstr,hop,htodo,registerFree] at hs2 ⊢
    exact ⟨hs2.1,hs2.2.symm⟩
  subst hth2
  have hnew : ∀ w, (registerFree (registerFree th a (c + 1)) b c).Waits w →
      w = ⟨b,c⟩ ∨ w = ⟨a,c + 1⟩ ∨ th.Waits w := by
    intro w hwaits
    obtain ⟨j,hw⟩ := hwaits
    rcases mem_register_free.mp hw with ⟨heq,_⟩ | hw
    · exact .inl heq
    · rcases mem_register_free.mp hw with ⟨heq,_⟩ | hw
      · exact .inr (.inl heq)
      · exact .inr (.inr ⟨j,hw⟩)
  have hold : ∀ w, th.Waits w → w.blk ≠ a ∧ w.blk ≠ b := by
    intro w hw
    constructor
    · intro heq
      have := (hi.waits_iff a).mpr ⟨w,hw,heq⟩
      simp [ha] at this
    · intro heq
      obtain ⟨j,hj⟩ := hw
      have := (hi1.waits_iff b).mpr ⟨w,⟨j,mem_register_free.mpr (.inr hj)⟩,heq⟩
      simp [hb] at this
  refine ⟨⟨_,register_free_waits,rfl⟩,?_,?_,?_,by simp [registerFree,hfreed]⟩
  · intro w hw heq
    rcases hnew w hw with h | h | h
    · rw [h]
    · rw [h] at heq; exact absurd heq hab
    · exact absurd heq (hold w h).2
  · have hself : (registerFree th a (c + 1)).Waits ⟨a,c + 1⟩ := register_free_waits
    obtain ⟨j,hj⟩ := hself
    exact ⟨_,⟨j,mem_register_free.mpr (.inr hj)⟩,rfl⟩
  · intro w hw heq
    rcases hnew w hw with h | h | h
    · rw [h] at heq; exact absurd heq.symm hab
    · rw [h]
    · exact absurd heq (hold w h).1

end

theorem reclaim_immediate (hop : th.op = some c) (hfreed : th.freed = [])
    (hplay : play (step k) th ([.registerFree a c,.setEpoch b nullEpoch,.deallocate b,
      .registerPersistRaw b c].map Act.instr) = some th') :
    th'.freed = [⟨b,c⟩] ∧ th'.now = c := by
  simp only [List.map,play,bind_eq_some_iff,some.injEq] at hplay
  obtain ⟨th1,hs1,th2,hs2,th3,hs3,th4,hs4,rfl⟩ := hplay
  obtain ⟨htodo,hth1⟩ : th.todo = [] ∧ th1 = registerFree th a c := by
    cases htodo : th.todo <;> simp [step,stepWith,stepInstr,hop,htodo] at hs1 ⊢
    exact hs1.2.symm
  subst hth1
  simp only [step,stepWith,stepInstr,registerFree,hop,htodo,some.injEq] at hs2
  subst hs2
  simp [step,stepWith,stepInstr,ite_none_right_eq_some] at hs3
  obtain ⟨-,rfl⟩ := hs3
  simp only [step,stepWith,stepInstr,deallocate,some.injEq] at hs4
  subst hs4
  simp [hfreed,Thread.now]

/-- A payload created in `e`, retired in `r` and reclaimed in an operation of epoch `c` is
deallocated in time exactly when the reclamation is deferred, which `reclaim_pblk` decides
from the creation epoch, or the retirement is two epochs old. -/
theorem reclaimed_after_retirement (hth : play (step k) (start last) before = some th)
    (hop : th.op = some c) (hab : a ≠ b) (hret : retire k h a b r tid sn = .ok h₁)
    (hanti : (h₁ b).retire = some a) (hkeep : h₂ b = h₁ b ∧ h₂ a = h₁ a) (hrc : r ≤ c)
    (hrec : EpochSys.reclaimPblk h₂ f b c = .ok is)
    (hplay : play (step k) { th with freed := [] } (is.map Act.instr ++ after) = some th') :
    Safe b a r th'.freed ↔ c ≤ (h b).epoch + 1 ∨ r + 2 ≤ c := by
  obtain ⟨her,hb,ha⟩ := retire_spec hret hab hanti
  have hi : Inv k th :=
    play_invariant hth (Inv k) (start_inv k last) fun _ _ _ hi hs => step_inv hi hs
  have hi0 : Inv k { th with freed := [] } :=
    ⟨hi.bucket,hi.idle,hi.epoch,hi.ascending,hi.due,hi.waiting⟩
  rw [play_append] at hplay
  obtain ⟨th1,hth1,hafter⟩ := bind_eq_some_iff.mp hplay
  have hi1 : Inv k th1 := play_invariant hth1 (Inv k) hi0 fun _ _ _ hi hs => step_inv hi hs
  have hfollow : Follows b a r c th1 → Safe b a r th'.freed := by
    intro hf
    obtain ⟨-,hp | hg⟩ := play_invariant hafter (fun t => Inv k t ∧ Follows b a r c t) ⟨hi1,hf⟩
      fun _ _ _ hi hs => ⟨step_inv hi.1 hs,step_follows hi.1 hi.2 hab hrc hs⟩
    · exact hp.safe
    · exact hg.safe
  have hrb : (h₂ b).retire = some a := by rw [hkeep.1,hanti]
  have hbc : (h₂ b).epoch = (h b).epoch := by rw [hkeep.1,hb]
  have hac : (h₂ a).epoch = r := by rw [hkeep.2,ha]
  obtain ⟨hle,his⟩ | ⟨hlt,his⟩ := reclaim_spec hrb (by omega) (by omega) hrec
  · subst his
    have hp := reclaim_deferred hi0 hop rfl hab hth1
    exact ⟨fun _ => .inl (by omega),fun _ => hfollow (.inl hp)⟩
  · subst his
    have hop0 : ({ th with freed := [] } : Thread).op = some c := hop
    obtain ⟨hfreed,hnow⟩ := reclaim_immediate hop0 rfl hth1
    constructor
    · intro hsafe
      have hmem : (⟨b,c⟩ : Freed) ∈ th'.freed :=
        play_invariant hafter (fun t => ⟨b,c⟩ ∈ t.freed) (by simp [hfreed])
          fun _ _ _ hm hs => step_freed hs hm
      exact .inr (hsafe.durable _ hmem rfl)
    · intro hcond
      have hdurable : r + 2 ≤ c := by omega
      refine hfollow (.inr ⟨⟨⟨b,c⟩,by simp [hfreed],rfl⟩,by omega,?_,?_⟩)
      · simpa [hfreed] using hdurable
      · simpa [hfreed,Precedes] using hab.symm

/-- Created in epoch 4, retired and reclaimed in epoch 5: the payload leaves its bucket in
epoch 7, the anti-node in epoch 8. -/
theorem reclaimed_after_retirement_deferred :
    ∃ th', play (step .nonblocking) ⟨5,some 5,[],fun _ => [],[]⟩
        ([.registerFree 2 6,.registerFree 1 5].map Act.instr ++
          [.finish,.begin 7,.drain,.drain,.drain,.finish,.begin 8,.drain]) = some th' ∧
      th'.freed = [⟨2,8⟩,⟨1,7⟩] ∧ Safe 1 2 5 th'.freed := by
  have hret : retire .nonblocking (fun _ => ⟨none,4,.alloc,0,0,9⟩) 2 1 5 0 0 = .ok _ := rfl
  have hrec : EpochSys.reclaimPblk (fun x => if x = 1 then ⟨some 2,4,.alloc,0,0,9⟩
    else ⟨none,5,.delete,0,0,9⟩) 3 1 5 = .ok [.registerFree 2 6,.registerFree 1 5] := rfl
  have hth : play (step .nonblocking) (start 5) [.begin 5] =
    some ⟨5,some 5,[],fun _ => [],[]⟩ := rfl
  have hplay : play (step .nonblocking) ⟨5,some 5,[],fun _ => [],[]⟩
    ([.registerFree 2 6,.registerFree 1 5].map Act.instr ++
      [.finish,.begin 7,.drain,.drain,.drain,.finish,.begin 8,.drain]) = some _ := rfl
  refine ⟨_,hplay,rfl,?_⟩
  exact (reclaimed_after_retirement (f := 3) hth rfl (by decide) hret rfl ⟨rfl,rfl⟩ (by decide) hrec
    hplay).mpr (.inl (by decide))

/-- Created in epoch 3, retired and reclaimed in epoch 5: the payload is deallocated on the
spot, although its retirement is durable only from epoch 7 on. -/
theorem reclaimed_before_retirement :
    ∃ h₁ is th', retire .blocking (fun _ => ⟨none,3,.alloc,0,0,9⟩) 2 1 5 0 0 = .ok h₁ ∧
      (h₁ 1).retire = some 2 ∧ EpochSys.reclaimPblk h₁ 3 1 5 = .ok is ∧
      play (step .blocking) (start 3) ([.begin 5,.drain,.drain] ++ is.map Act.instr) = some th' ∧
      ¬ Safe 1 2 5 th'.freed := by
  refine ⟨_,_,_,rfl,rfl,rfl,rfl,?_⟩
  intro hsafe
  exact absurd (hsafe.durable ⟨1,5⟩ List.mem_cons_self rfl) (by decide)

end Montage.ToBeFreed
