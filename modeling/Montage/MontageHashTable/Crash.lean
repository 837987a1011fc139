import Montage.MontageHashTable.Mirrors
import Montage.Recover.Blocking

namespace Montage.MontageHashTable
open Library Library.Maps Recoverable EpochSys Function List Option Recover
open Recoverable.Memory hiding call
open ToBeFreed (Kind)
open Rebuild (lookup_some_iff)

variable {K V : Type} {s s' : State K V} {blocks : List Block}

/-- A block with the header that it has in memory. -/
def Intact (s : State K V) (b : Block) : Prop :=
  b.addr ∈ s.mem.allocated ∧ b.blktype = (s.mem.heap b.addr).blktype ∧
    b.epoch = (s.mem.heap b.addr).epoch ∧ b.id = (s.mem.heap b.addr).id

/-- What a crash may leave: an epoch container, all blocks that are at least two epochs old, and any
other ones. -/
@[mk_iff]
structure Crash (s : State K V) (blocks : List Block) : Prop where
  addrs : (blocks.map Block.addr).Nodup
  container : (blocks.filter fun b => b.blktype = .epoch).length = 1
  uint64 : s.epoch ≤ uint64Max
  durable : ∀ x ∈ s.mem.allocated, (s.mem.heap x).epoch ≠ nullEpoch →
    (s.mem.heap x).epoch + 2 ≤ s.epoch → ∃ b ∈ blocks, b.addr = x ∧ Intact s b

/-- What has to be written back by then: the current epoch, and the reset epoch of every block that
was freed. -/
@[mk_iff]
structure WrittenBack (s : State K V) (blocks : List Block) : Prop where
  epoch : maxEpoch blocks = s.epoch
  blocks : ∀ b ∈ blocks, b.blktype ≠ .epoch →
    Intact s b ∨ b.epoch = nullEpoch ∧ b.blktype ≠ .owned

instance (s : State K V) (b : Block) : Decidable (Intact s b) := instDecidableAnd

instance (s : State K V) (blocks : List Block) : Decidable (Crash s blocks) :=
  decidable_of_iff _ (crash_iff s blocks).symm

instance (s : State K V) (blocks : List Block) : Decidable (WrittenBack s blocks) :=
  decidable_of_iff _ (writtenBack_iff s blocks).symm

section
variable (hw : WrittenBack s blocks)
include hw

theorem WrittenBack.intact {b : Block} (hb : b ∈ blocks) (ht : b.blktype ≠ .epoch)
    (htag : b.epoch ≠ nullEpoch) : Intact s b :=
  (hw.blocks b hb ht).resolve_right fun h => htag h.1

variable (hc : Crash s blocks)
include hc

omit hw in
theorem Crash.block_eq {b b' : Block} (hb : b ∈ blocks) (hb' : b' ∈ blocks) (h : b.addr = b'.addr) :
    b = b' := inj_on_of_nodup_map hc.addrs hb hb' h

variable (hv : Versions s.mem)
include hv

/-- Two blocks of one id, of which the first is not newer. -/
theorem WrittenBack.order {b b' : Block} (hb : b ∈ blocks) (hb' : b' ∈ blocks)
    (ht : b.blktype ≠ .epoch) (ht' : b'.blktype ≠ .epoch) (hid : b.id = b'.id)
    (htag : b.epoch ≠ nullEpoch) (hle : b.epoch ≤ b'.epoch) :
    b = b' ∨ b.epoch < b'.epoch ∧ b.blktype ≠ .delete ∧ b'.blktype ≠ .alloc := by
  have := hw.intact hb ht htag
  have := hw.intact hb' ht' (by grind [nullEpoch])
  have := hv.order b.addr (by grind [Intact]) b'.addr
  grind [hc.block_eq,Intact]

theorem WrittenBack.image (h3 : initEpoch ≤ s.epoch) : Blocking.Image blocks where
  addrs := hc.addrs
  container := hc.container
  antiNodes := by
    intro d hd d' hd'
    have := hw.order hc hv hd hd'
    have := hw.order hc hv hd' hd
    grind
  versions := by
    intro b hb b' hb'
    have := hw.order hc hv hb hb'
    grind [Block.isPayload]
  oldest := by
    intro b hb halloc _ y hy
    have := hw.order hc hv hy hb
    grind [Block.isPayload]
  owned := by
    intro b hb ht
    rcases hw.blocks b hb (by simp [ht]) with hfound | hreset
    · grind [hv.types b.addr,Intact]
    · exact hreset.2 ht
  started := hw.epoch ▸ h3
  uint64 := hw.epoch ▸ hc.uint64

theorem WrittenBack.chosen {b : Block} : Blocking.Chosen blocks b ↔
    b ∈ blocks ∧ b.blktype ≠ .epoch ∧ Snapshot s.mem (s.epoch - 2) b.addr := by
  simp only [Blocking.Chosen,Blocking.Mature,Blocking.Deleted,hw.epoch]
  constructor
  · rintro ⟨⟨hb,hpay,htag,hle⟩,hnewest,hdeleted⟩
    have hne : b.blktype ≠ .epoch := by grind [Block.isPayload]
    obtain ⟨hfound,htype,hepoch,hid⟩ := hw.intact hb hne htag
    refine ⟨hb,hne,hfound,by grind,by grind,by grind [Block.isPayload],?_⟩
    intro x hx hxb hxid hxe
    by_cases hxtag : (s.mem.heap x).epoch = nullEpoch
    · grind [nullEpoch]
    · -- a durable version is among the blocks, and it is a payload
      obtain ⟨y,hy,rfl,hyfound⟩ := hc.durable x hx hxtag (by grind [nullEpoch])
      have := hv.types y.addr hx
      have := hnewest y
      have := hw.order hc hv hy hb
      grind [Block.isPayload,Intact]
  · rintro ⟨hb,hne,hsnap⟩
    have htag := hsnap.tagged
    have hle := hsnap.epoch
    have htype := hsnap.blktype
    -- the block at this address is the durable one
    obtain ⟨y,hy,hyb,hfound⟩ := hc.durable b.addr hsnap.allocated htag (by grind [nullEpoch])
    obtain rfl := hc.block_eq hy hb hyb
    obtain ⟨-,hbtype,hbepoch,hbid⟩ := hfound
    have hother : ∀ x ∈ blocks, x.blktype ≠ .epoch → x.epoch ≤ s.epoch - 2 → x.id = y.id →
        x = y ∨ x.epoch < y.epoch := by
      intro x hx hxne hxe hxid
      by_cases hxtag : x.epoch = nullEpoch
      · exact .inr (by grind [nullEpoch])
      · have := hw.intact hx hxne hxtag
        have := hsnap.newest x.addr
        grind [hc.block_eq,Intact]
    refine ⟨by grind [Block.isPayload],by grind [Block.isPayload],?_⟩
    rintro ⟨d,hd,hdel,hdtag,hde,hdid⟩
    have := hother d hd (by simp [hdel]) hde hdid
    have := hw.order hc hv hd hb (by simp [hdel]) hne hdid hdtag
    grind

/-- Recovery finds the payloads that were current two epochs ago. -/
theorem WrittenBack.recover (h3 : initEpoch ≤ s.epoch) {iter : List Block → List Block}
    {parts₁ parts₂ : List (List Block)} (hiter : ∀ l, (iter l).Perm l)
    (h₁ : parts₁.flatten.Perm blocks) (h₂ : parts₂.flatten.Perm blocks) :
    ∃ out, Blocking.recover false iter parts₁ parts₂ = .ok out ∧ ∀ i b,
      out.inUse.find? Block.id i = some b ↔ (b ∈ blocks ∧ b.blktype ≠ .epoch ∧
        Snapshot s.mem (s.epoch - 2) b.addr) ∧ b.id = i := by
  have hi := hw.image hc hv h3
  have hunused : ∀ b ∈ blocks, b.blktype = .init ∨ b.blktype = .reclaimed →
      b.epoch = nullEpoch ∨ maxEpoch blocks - 2 < b.epoch ∨ Blocking.Deleted blocks b.id := by
    intro b hb ht
    rcases hw.blocks b hb (by rcases ht with h | h <;> simp [h]) with ⟨hmem,htype,hepoch,-⟩ | hreset
    · rcases hv.types _ hmem with ⟨hnull,-⟩ | ⟨-,h⟩
      · exact .inl (hepoch.trans hnull)
      · rw [← htype] at h
        rcases ht with ht | ht <;> simp [ht] at h
    · exact .inl hreset.1
  obtain ⟨_,_,_,hrecover,hdeleted,-,hfinal⟩ := Blocking.recover_newest hi hunused hiter h₁ h₂
  refine ⟨_,hrecover,fun i b => ?_⟩
  rw [Blocking.find_iff_chosen hi hdeleted hfinal,hw.chosen hc hv]

end

variable [LinearOrder K] {hash : K → Nat} {idxSize : Nat} {k : Kind} {act : Act K V}
  {ms : List (Move (State K V) (Act K V))}

/-- The calls that have begun in the last two epochs. -/
def Active (s : State K V) : Prop :=
  ∀ t call newNode c, s.pc t = .inside call newNode c → call.readOnly ∨ s.epoch ≤ c + 1

theorem Active.step (ha : Active s) (hi : Inv hash idxSize s) (hok : Orderly s act)
    (h : step k hash idxSize s act = some s') : Active s' := by
  have hinside := (step_inside hi h).2
  intro t call newNode c hpc
  have := hinside t call newNode c hpc
  have := ha t call newNode c
  cases step_becomes hi h with
  | advance => exact (hok t call newNode c hpc).imp_right Nat.succ_le_succ
  | drain | invoke _ hepoch | enter _ _ _ _ hepoch | finish _ _ _ _ _ _ hepoch => grind

theorem run_active {content : Addr → Payload K V}
    (run : Run (step k hash idxSize) Orderly (init content) ms s) : Active s ∧ initEpoch ≤ s.epoch := by
  induction run with
  | nil =>
    refine ⟨?_,le_rfl⟩
    intro t call newNode c hpc
    cases hpc
  | snoc run hok next ih =>
    have hi := (run_recalls run).1
    exact ⟨ih.1.step hi hok next,ih.2.trans (step_inside hi next).1⟩

/-- A call that has not taken effect has left nothing that is durable. -/
theorem shown_iff {ds : List (Done K V)} {e : Nat} (hi : Inv hash idxSize s) (hm : Mirrors e ds s)
    (ha : Active s) (he : e + 2 ≤ s.epoch) (p : Addr) : Shown s e p ↔ Snapshot s.mem e p := by
  refine ⟨And.left,fun hp => ⟨hp,fun t ht => ?_⟩⟩
  have h := hi.threads t
  have htag := hp.tagged
  have hle := hp.epoch
  cases hpc : s.pc t with
  | idle => simp [hpc,Pc.newNode] at ht
  | called =>
    rw [hpc] at h ht
    cases ht
    cases h.2.2.2 with
    | node _ state => exact htag state.epoch
  | inside call _ c =>
    rw [hpc] at h ht
    cases ht
    have hepoch := hm.own t call p c hpc
    have hactive := ha t call _ c hpc
    cases h.2.2.2.2 with
    | node made => cases call <;> grind [Call.made,Call.readOnly]

/-- If the current epoch and the resets of freed blocks have been written back, a crash loses the calls
of the last two epochs and nothing else: the payloads that recovery returns hold the map that the
other calls have made, one for each key. -/
theorem crash_recovers {content : Addr → Payload K V}
    (run : Run (step .blocking hash idxSize) Orderly (init content) ms s) (hc : Crash s blocks)
    (hw : WrittenBack s blocks) {iter : List Block → List Block} {parts₁ parts₂ : List (List Block)}
    (hiter : ∀ l, (iter l).Perm l) (h₁ : parts₁.flatten.Perm blocks)
    (h₂ : parts₂.flatten.Perm blocks) :
    ∃ out, Blocking.recover false iter parts₁ parts₂ = .ok out ∧
      Holds (fun p => ∃ b, out.inUse.find? Block.id b.id = some b ∧ b.addr = p) s.content
        (valueAfter (retained (s.epoch - 2) (history ms))) := by
  obtain ⟨ha,h3⟩ := run_active run
  have h3 : 3 ≤ s.epoch := h3
  have hm := run_mirrors run (s.epoch - 2) (by omega)
  obtain ⟨out,hrecover,hfind⟩ := hw.recover hc hm.versions h3 hiter h₁ h₂
  refine ⟨out,hrecover,hm.holds.congr ?_ fun _ _ => rfl⟩
  intro p
  rw [shown_iff (run_recalls run).1 hm ha (by omega)]
  have hdurable := fun hp : Snapshot s.mem (s.epoch - 2) p =>
    hc.durable p hp.allocated hp.tagged (by have := hp.epoch; omega)
  have hpayload := fun hp : Snapshot s.mem (s.epoch - 2) p => hp.blktype
  grind [Intact]

/-- Key 3 is written in epoch 3 and removed in epoch 5. -/
def lifetime : List (Act Nat Nat) :=
  [.invoke 0 (.put 3 7) above,.enter 0 1,.finish 0 above,.advance,.advance,
    .invoke 0 (.remove 3) above,.enter 0 2,.finish 0 above]

def remains : List Block :=
  [⟨0,.epoch,0,0,0,0,5,false⟩,⟨1,.alloc,3,1,0,0,0,false⟩,⟨2,.delete,5,1,0,0,0,false⟩,
    ⟨3,.update,0,1,0,0,0,false⟩]

def unlocked (s : State Nat Nat) : Act Nat Nat → Bool
  | .advance => (s.lock 0).isNone
  | .drain _ _ => false
  | _ => true

theorem unlocked_orderly {s : State Nat Nat} {act : Act Nat Nat} (hi : Inv id 1 s)
    (h : unlocked s act = true) : Orderly s act := by
  cases act with
  | advance =>
    intro t call newNode c hpc
    have hlock := (hi.locks 0 t).mpr ⟨call,newNode,c,hpc,Nat.mod_one _⟩
    cases (isNone_iff_eq_none.mp h).symm.trans hlock
  | drain => cases h
  | _ => trivial

/-- The removal is lost, although its anti-node has reached memory; a block that was freed and reset is
passed over. -/
theorem crash_recovers_removed : ∃ ms s out,
    Run (step .blocking id 1) Orderly (init fun _ => ⟨0,0⟩) ms s ∧ ms.map (·.act) = lifetime ∧
      Crash s remains ∧ WrittenBack s remains ∧ valueAfter (retained (s.epoch - 2) (history ms)) 3 = some 7 ∧
      Blocking.recover false reverse [remains] [remains.drop 1,remains.take 1] = .ok out := by
  obtain ⟨s,hplay,hs⟩ : ∃ s, play (step .blocking id 1) (init fun _ => ⟨0,0⟩) lifetime = some s ∧
      decide (Crash s remains ∧ WrittenBack s remains) = true := map_eq_some_iff.mp (by decide +kernel)
  obtain ⟨hc,hw⟩ := of_decide_eq_true hs
  have hcalm : (trace (step .blocking id 1) (init fun _ => ⟨0,0⟩) lifetime).all
      (fun m => unlocked m.pre m.act) = true := by decide +kernel
  have run := Run.nil.trace hplay
  have hinv := run.each _ (init_inv id 1 _) fun _ _ _ hi _ h => (step_sound hi h).1
  have run := run.restrict fun m hm => unlocked_orderly (hinv m hm).1 (all_eq_true.mp hcalm m hm)
  obtain ⟨out,hrecover,-⟩ := crash_recovers run hc hw reverse_perm
    (show [remains].flatten.Perm remains by decide)
    (show [remains.drop 1,remains.take 1].flatten.Perm remains by decide)
  refine ⟨_,s,out,run,trace_acts hplay,hc,hw,?_,hrecover⟩
  rw [← hw.epoch]
  decide +kernel

end Montage.MontageHashTable
