import Mathlib.Data.Finset.Insert
import Montage.Dcss.Steps

namespace Montage.Dcss
open Library Function List Option

/-- The threads below `n` with the advancer, which runs as thread `n`. `opened` is the global
epoch a thread has read in its latest `begin_transaction`. For the status word of a descriptor,
`setUp` is the epoch of the operation that has stored it and `stored` the global epoch at
that step. `treated` are the descriptors on which `try_abort` has returned since the epoch
was last advanced. -/
structure World where
  base : State
  opened : Nat → Nat
  setUp : Nat → Nat
  stored : Nat → Nat
  treated : Finset Nat

namespace World

def init (g : Nat) (val : Nat → Nat) : World where
  base := Dcss.init (initEpoch + g) val
  opened _ := nullEpoch
  setUp _ := nullEpoch
  stored _ := nullEpoch
  treated := ∅

def record (w : World) (t : Nat) (base : State) : World :=
  match w.base.pc t with
  | .loadEpoch _ =>
    { w with base := base, opened := update w.opened t w.base.globalEpoch }
  | .setVar _ _ =>
    { w with
      base := base
      setUp := update w.setUp t (w.opened t)
      stored := update w.stored t w.base.globalEpoch }
  | _ => { w with base := base }

def target : Pc → Option Nat
  | .abortLoad D _ | .abortEpoch D _ _ | .abortCas D _ => some D
  | _ => none

def treat (n : Nat) (w : World) (base : State) : World :=
  match base.pc n, target (w.base.pc n) with
  | .idle, some D => { w with base := base, treated := insert D w.treated }
  | _, _ => { w with base := base }

/-- `tryAbort`, `advancer` and `advance` are the advancer's: it calls `try_abort(x-1)` on a
descriptor, makes an access of this call, and advances the epoch from `x` once the
call has returned for every thread. -/
inductive Act where
  | start (t : Nat) (r : Request)
  | access (t : Nat)
  | tryAbort (desc : Nat)
  | advancer
  | advance

def work : Request → Bool
  | .tryAbort _ _ => false
  | _ => true

def step (n : Nat) (w : World) : Act → Option World
  | .start t r =>
    if t < n ∧ work r then
      (Dcss.step .nonblocking w.base (.start t r)).map fun base => { w with base := base }
    else none
  | .access t =>
    if t < n then (Dcss.step .nonblocking w.base (.access t)).map (w.record t) else none
  | .tryAbort D =>
    if D < n then
      (Dcss.step .nonblocking w.base (.start n (.tryAbort D (w.base.globalEpoch - 1)))).map
        fun base => { w with base := base }
    else none
  | .advancer => (Dcss.step .nonblocking w.base (.access n)).map (w.treat n)
  | .advance =>
    if w.base.pc n = .idle ∧ ∀ i < n, i ∈ w.treated then
      (Dcss.step .nonblocking w.base .advance).map
        fun base => { w with base := base, treated := ∅ }
    else none

def epoch (w : World) : Nat := w.base.globalEpoch

def var (w : World) (D : Nat) : LinVar (Option Nat) := (w.base.descs D).var

/-- The status word of `D` was stored in the epoch of its operation and is undecided: only
such a word can be committed. -/
def Ripe (w : World) (D : Nat) : Prop := (w.var D).inProgress ∧ w.stored D = w.setUp D

def Late (w : World) (D : Nat) : Prop := w.Ripe D ∧ w.setUp D < w.epoch

structure Status (n : Nat) (w : World) (D : Nat) : Prop where
  thread : D < n
  epoch : (w.base.descs D).epoch = w.setUp D
  setUp : w.setUp D ≤ w.stored D
  stored : w.stored D ≤ w.epoch

def Owns (w : World) (t : Nat) : Pc → Prop
  | .incrementSn _ e | .resetVar _ e => e = w.opened t
  | .setUpEpoch _ e => e = w.opened t ∧ w.var t = ⟨none,0⟩
  | _ => (w.base.descs t).epoch = w.opened t

def Checks (w : World) (D : Nat) : Stage → Prop
  | .check d e => d.Match (w.var D) → e = w.setUp D
  | .decide d true => d.Match (w.var D) → w.stored D = w.setUp D
  | _ => True

def Aborts (w : World) : Pc → Prop
  | .idle => True
  | .abortLoad _ e => w.epoch = e + 1
  | .abortEpoch D e d => w.epoch = e + 1 ∧ (w.Late D → d = w.var D)
  | .abortCas D d => w.Late D → d = w.var D
  | _ => False

structure Inv (n : Nat) (w : World) : Prop where
  base : Dcss.Inv w.base
  positive : 0 < w.epoch
  opened : ∀ t, w.opened t ≤ w.epoch
  blank : ∀ D, (w.var D).val = none → w.var D = ⟨none,0⟩
  status : ∀ D, (w.var D).val ≠ none → Status n w D
  owner : ∀ t < n, Owns w t (w.base.pc t)
  helper : ∀ t h stage, w.base.pc t = .help h stage → Checks w h.desc stage
  advancer : Aborts w (w.base.pc n)
  due : ∀ D, w.Ripe D → w.epoch ≤ w.setUp D + 1
  treated : ∀ D ∈ w.treated, ¬w.Late D

inductive Turn (n : Nat) (w w' : World) (D : Nat) : Prop
  | same (var : Decides (w.var D) (w'.var D))
      (epoch : (w'.base.descs D).epoch = (w.base.descs D).epoch)
      (setUp : w'.setUp D = w.setUp D) (stored : w'.stored D = w.stored D)
  | cleared (var : w'.var D = ⟨none,0⟩)
  | fresh (thread : D < n) (val : (w'.var D).val ≠ none)
      (epoch : (w'.base.descs D).epoch = w'.setUp D)
      (setUp : w'.setUp D ≤ w.epoch) (stored : w'.stored D = w.epoch)
      (new : ∀ d, Held w.base.words D (w.var D) (w.base.pc D) d → ¬d.Match (w'.var D))

variable {n : Nat} {w w' : World} {D t : Nat}

theorem Decides.in_progress {v v' : LinVar (Option Nat)} (h : Decides v v')
    (hp : v'.inProgress = true) : v' = v := by
  rcases h with h | ⟨-,-,hd⟩
  · exact h
  · unfold LinVar.Decided at hd
    simp only [LinVar.inProgress,decide_eq_true_eq] at hp
    omega

section
variable (h : Turn n w w' D)
include h

theorem Turn.ripe (hr : w'.Ripe D) :
    w.epoch = w'.setUp D ∨ w.Ripe D ∧ w'.var D = w.var D ∧ w'.setUp D = w.setUp D := by
  obtain ⟨hp,hon⟩ := hr
  cases h with
  | same var _ setUp stored =>
    have hvar := Decides.in_progress var hp
    rw [hvar] at hp
    exact .inr ⟨⟨hp,stored.symm.trans (hon.trans setUp)⟩,hvar,setUp⟩
  | cleared var =>
    rw [var] at hp
    cases hp
  | fresh _ _ _ _ stored => exact .inl (stored.symm.trans hon)

theorem Turn.late (hg : w'.epoch = w.epoch) (hl : w'.Late D) : w.Late D ∧ w'.var D = w.var D := by
  obtain ⟨hr,hlt⟩ := hl
  rw [hg] at hlt
  rcases h.ripe hr with heq | ⟨hr,hvar,hset⟩
  · omega
  · exact ⟨⟨hr,by omega⟩,hvar⟩

omit h in
theorem decides_blank {v : LinVar (Option Nat)} (h : Decides ⟨none,0⟩ v) : v = ⟨none,0⟩ := by
  rcases h with h | ⟨hp,-⟩
  · exact h
  · cases hp

theorem Turn.blank (hb : (w.var D).val = none → w.var D = ⟨none,0⟩)
    (hv : (w'.var D).val = none) : w'.var D = ⟨none,0⟩ := by
  cases h with
  | same var =>
    rw [hb (var.match.2.symm.trans hv)] at var
    exact decides_blank var
  | cleared var => exact var
  | fresh _ val => exact absurd hv val

theorem Turn.status (hg : w'.epoch = w.epoch)
    (hs : (w.var D).val ≠ none → Status n w D) (hv : (w'.var D).val ≠ none) : Status n w' D := by
  cases h with
  | same var epoch setUp =>
    rw [var.match.2] at hv
    obtain ⟨hthread,hepoch,hset,hstored⟩ := hs hv
    exact ⟨hthread,by rw [epoch,hepoch,setUp],by omega,by omega⟩
  | cleared var =>
    rw [var] at hv
    exact absurd rfl hv
  | fresh thread _ epoch => exact ⟨thread,epoch,by omega,by omega⟩

theorem Turn.match {d : LinVar (Option Nat)}
    (hheld : Held w.base.words D (w.var D) (w.base.pc D) d) (hval : d.val ≠ none)
    (hm : d.Match (w'.var D)) :
    d.Match (w.var D) ∧ w'.setUp D = w.setUp D ∧ w'.stored D = w.stored D := by
  cases h with
  | same var _ setUp stored => exact ⟨hm.trans var.match,setUp,stored⟩
  | cleared var =>
    rw [var] at hm
    exact absurd hm.2 hval
  | fresh _ _ _ _ _ new => exact absurd hm (new d hheld)

theorem Turn.checks {word : Nat} {stage : Stage}
    (hh : Helper w.base.words D (w.var D) (w.base.pc D) word stage) (hc : Checks w D stage) :
    Checks w' D stage := by
  have hback : ∀ d, Held w.base.words D (w.var D) (w.base.pc D) d ∧ d.val = some word →
      d.Match (w'.var D) →
      d.Match (w.var D) ∧ w'.setUp D = w.setUp D ∧ w'.stored D = w.stored D :=
    fun d hd => h.match hd.1 (by simp [hd.2])
  cases stage with
  | check d =>
    intro hm
    obtain ⟨hm',hset,-⟩ := hback d hh hm
    rw [hset]
    exact hc hm'
  | decide d verdict =>
    cases verdict with
    | false => trivial
    | true =>
      intro hm
      obtain ⟨hm',hset,hstored⟩ := hback d hh hm
      rw [hset,hstored]
      exact hc hm'
  | _ => trivial

end

theorem Turn.aborts (h : ∀ D, Turn n w w' D) (hg : w'.epoch = w.epoch) {p : Pc}
    (ha : Aborts w p) : Aborts w' p := by
  have hlate : ∀ D (d : LinVar (Option Nat)), (w.Late D → d = w.var D) → w'.Late D →
      d = w'.var D := by
    intro D d hd hl
    obtain ⟨hl',hvar⟩ := (h D).late hg hl
    rw [hvar]
    exact hd hl'
  cases p with
  | idle => trivial
  | abortLoad => exact hg.trans ha
  | abortEpoch D e d => exact ⟨hg.trans ha.1,hlate D d ha.2⟩
  | abortCas D d => exact hlate D d ha
  | _ => cases ha

theorem Owns.keep {p : Pc} (h : Owns w t p) (hopened : w'.opened t = w.opened t)
    (hepoch : (w'.base.descs t).epoch = (w.base.descs t).epoch)
    (hvar : Decides (w.var t) (w'.var t)) : Owns w' t p := by
  cases p with
  | incrementSn k e | resetVar k e => exact Eq.trans h hopened.symm
  | setUpEpoch =>
    obtain ⟨he,hnone⟩ := h
    refine ⟨he.trans hopened.symm,?_⟩
    rw [hnone] at hvar
    exact decides_blank hvar
  | _ => exact hepoch.trans (Eq.trans h hopened.symm)

theorem init_inv (n g : Nat) (val : Nat → Nat) : Inv n (init g val) where
  base := Dcss.init_inv _ val
  positive := by
    simp only [epoch,init,Dcss.init,initEpoch]
    omega
  opened t := by simp [init,nullEpoch]
  blank D _ := rfl
  status D hv := by simp [var,init,Dcss.init] at hv
  owner t _ := rfl
  helper t h stage hp := by cases hp
  advancer := trivial
  due D hr := by cases hr.1
  treated D hD := by cases hD

structure Calm (w w' : World) (t : Nat) (p : Pc) : Prop where
  epoch : w'.epoch = w.epoch
  pc : w'.base.pc = update w.base.pc t p
  core : ∀ D, (w'.base.descs D).epoch = (w.base.descs D).epoch ∧ Decides (w.var D) (w'.var D)
  opened : w'.opened = w.opened
  setUp : w'.setUp = w.setUp
  stored : w'.stored = w.stored

theorem calm_goto (w : World) (t : Nat) (p : Pc) : Calm w { w with base := w.base.goto t p } t p :=
  ⟨rfl,rfl,fun _ => ⟨rfl,.inl rfl⟩,rfl,rfl,rfl⟩

theorem calm_desc (w : World) (t : Nat) (p : Pc) {E : Desc}
    (hepoch : E.epoch = (w.base.descs D).epoch) (hvar : Decides (w.var D) E.var) :
    Calm w { w with base := (w.base.setDesc D E).goto t p } t p := by
  refine ⟨rfl,rfl,?_,rfl,rfl,rfl⟩
  intro u
  simp only [var,goto_descs,set_desc_descs,update_apply]
  split
  next hu =>
    subst hu
    exact ⟨hepoch,hvar⟩
  next => exact ⟨rfl,.inl rfl⟩

theorem owns_done {h : Help} (hw : (w.base.descs t).epoch = w.opened t) : Owns w t h.done := by
  obtain ⟨desc,word,after⟩ := h
  cases after <;> exact hw

theorem decide_epoch (E : Desc) (d : LinVar (Option Nat)) (verdict : Bool) :
    (E.decide d verdict).epoch = E.epoch := by
  cases verdict with
  | true =>
    simp only [Desc.decide,Desc.commit,↓reduceIte]
    split <;> rfl
  | false =>
    simp only [Desc.decide,Desc.abort,Bool.false_eq_true,↓reduceIte]
    split <;> rfl

theorem cleanup_descs (s : State) (D : Nat) (d : LinVar (Option Nat)) (val : Nat) :
    (cleanupCas s D d val).descs = s.descs ∧ (cleanupCas s D d val).pc = s.pc ∧
      (cleanupCas s D d val).globalEpoch = s.globalEpoch := by
  unfold cleanupCas
  split
  · exact ⟨rfl,rfl,rfl⟩
  · split <;> exact ⟨rfl,rfl,rfl⟩

theorem treat_idle {base : State} {D : Nat} (hpc : base.pc n = .idle)
    (ht : target (w.base.pc n) = some D) :
    w.treat n base = { w with base := base, treated := insert D w.treated } := by
  simp only [treat,hpc,ht]

theorem treat_busy {base : State} {p : Pc} (hpc : base.pc n = p) (hp : p ≠ .idle) :
    w.treat n base = { w with base := base } := by
  unfold treat
  split
  next hidle _ => exact absurd (hpc.symm.trans hidle) hp
  next => rfl

theorem abort_own {E : Desc} (hp : E.var.inProgress = true) :
    (E.abort E.var).var.inProgress = false := by
  simp only [LinVar.inProgress,decide_eq_true_eq] at hp
  have hd := decide_decided E false (by omega) (abort_decides E E.var).2.2.match.symm
  simp only [Desc.decide,Bool.false_eq_true,↓reduceIte,LinVar.Decided] at hd
  simp only [LinVar.inProgress,decide_eq_false_iff_not]
  omega

@[simp] theorem record_base (w : World) (t : Nat) (base : State) :
    (w.record t base).base = base := by
  unfold record
  split <;> rfl

@[simp] theorem treat_base (n : Nat) (w : World) (base : State) :
    (w.treat n base).base = base := by
  unfold treat
  split <;> rfl

section
variable (hw : Inv n w)
include hw

theorem Inv.turn (hbase : Dcss.Inv w'.base) (hg : w'.epoch = w.epoch)
    (hturn : ∀ D, Turn n w w' D) (hpc : ∀ u ≠ t, w'.base.pc u = w.base.pc u)
    (hopened : ∀ u, w'.opened u = w.opened u ∨ w'.opened u = w.epoch)
    (hothers : ∀ u ≠ t, w'.opened u = w.opened u ∧
      (w'.base.descs u).epoch = (w.base.descs u).epoch ∧ Decides (w.var u) (w'.var u))
    (howner : t < n → Owns w' t (w'.base.pc t))
    (hhelper : ∀ h stage, w'.base.pc t = .help h stage → Checks w' h.desc stage)
    (hadvancer : t = n → Aborts w' (w'.base.pc n))
    (htreated : ∀ D ∈ w'.treated, D ∈ w.treated ∨ ¬w'.Late D) : Inv n w' where
  base := hbase
  positive := hg ▸ hw.positive
  opened u := by
    have := hw.opened u
    rcases hopened u with h | h <;> omega
  blank D := (hturn D).blank (hw.blank D)
  status D := (hturn D).status hg (hw.status D)
  owner u hu := by
    by_cases hut : u = t
    · subst hut
      exact howner hu
    · obtain ⟨hop,hep,hvar⟩ := hothers u hut
      rw [hpc u hut]
      exact (hw.owner u hu).keep hop hep hvar
  helper u h stage hp := by
    by_cases hut : u = t
    · subst hut
      exact hhelper h stage hp
    · rw [hpc u hut] at hp
      exact (hturn h.desc).checks (hw.base.helper u h stage hp) (hw.helper u h stage hp)
  advancer := by
    by_cases htn : t = n
    · exact hadvancer htn
    · rw [hpc n (Ne.symm htn)]
      exact Turn.aborts hturn hg hw.advancer
  due D hr := by
    rcases (hturn D).ripe hr with heq | ⟨hr',-,hset⟩
    · omega
    · have := hw.due D hr'
      omega
  treated D hD := by
    rcases htreated D hD with hD | hl
    · intro hl
      exact hw.treated D hD ((hturn D).late hg hl).1
    · exact hl

omit hw in
theorem Calm.turn {p : Pc} (h : Calm w w' t p) (D : Nat) : Turn n w w' D :=
  .same (h.core D).2 (h.core D).1 (by rw [h.setUp]) (by rw [h.stored])

theorem Inv.calm {p : Pc} (hbase : Dcss.Inv w'.base) (h : Calm w w' t p)
    (howner : t < n → Owns w t p)
    (hhelper : ∀ h stage, p = .help h stage → Checks w' h.desc stage)
    (hadvancer : t = n → Aborts w' p)
    (htreated : ∀ D ∈ w'.treated, D ∈ w.treated ∨ ¬w'.Late D) : Inv n w' := by
  have hself : w'.base.pc t = p := by rw [h.pc,update_self]
  refine hw.turn (t := t) hbase h.epoch h.turn ?_ ?_ ?_ ?_ ?_ ?_ htreated
  · intro u hu
    rw [h.pc,update_of_ne hu]
  · intro u
    exact .inl (by rw [h.opened])
  · intro u _
    exact ⟨by rw [h.opened],(h.core u).1,(h.core u).2⟩
  · intro ht
    rw [hself]
    exact (howner ht).keep (by rw [h.opened]) (h.core t).1 (h.core t).2
  · intro h' stage hp
    exact hhelper h' stage (hself.symm.trans hp)
  · intro ht
    rw [← ht,hself]
    exact hadvancer ht

theorem Inv.seen {d : LinVar (Option Nat)} {word : Nat}
    (hval : d.val = some word) (hm : d.Match (w.var D)) : Status n w D := by
  apply hw.status
  rw [← hm.2,hval]
  simp

section
variable (ht : t < n)
include ht

theorem Inv.try_complete {h : Help} {stage : Stage} (hp : w.base.pc t = .help h stage) :
    Inv n { w with base := tryComplete w.base t h stage } := by
  have hbase := hw.base.try_complete hp
  have hepoch : (w.base.descs t).epoch = w.opened t := by
    have := hw.owner t ht
    rwa [hp] at this
  have hknown := hw.helper t h stage hp
  have hheld := hw.base.helper t h stage hp
  have hgo : ∀ base p, Dcss.Inv base → Calm w { w with base := base } t p →
      (p = h.done ∨ ∃ stage', p = .help h stage' ∧
        Checks { w with base := base } h.desc stage') → Inv n { w with base := base } := by
    intro base p hb hc hpc
    refine hw.calm hb hc ?_ ?_ (fun heq => by omega) (fun D hD => .inl hD)
    · intro _
      rcases hpc with rfl | ⟨stage',rfl,-⟩
      · exact owns_done hepoch
      · exact hepoch
    · intro h' stage1 heq
      rcases hpc with rfl | ⟨stage',rfl,hchecks⟩
      · exact absurd heq (h.done_not_help h' _)
      · cases heq
        exact hchecks
  cases stage with
  | load =>
    simp only [tryComplete] at hbase ⊢
    split at hbase
    next hd =>
      rw [if_pos hd]
      exact hgo _ _ hbase (calm_goto w t _) (.inl rfl)
    next hd =>
      rw [if_neg hd]
      split at hbase
      next hin =>
        rw [if_pos hin]
        exact hgo _ _ hbase (calm_goto w t _) (.inr ⟨_,rfl,trivial⟩)
      next hin =>
        rw [if_neg hin]
        exact hgo _ _ hbase (calm_goto w t _) (.inr ⟨_,rfl,trivial⟩)
  | epoch =>
    refine hgo _ _ hbase (calm_goto w t _) (.inr ⟨_,rfl,?_⟩)
    intro hm
    exact (hw.seen hheld.2 hm).epoch
  | check d e =>
    refine hgo _ _ hbase (calm_goto w t _) (.inr ⟨_,rfl,?_⟩)
    cases hv : decide (e = w.base.globalEpoch) with
    | false => trivial
    | true =>
      intro hm
      -- the word's own epoch is the present one, so it was stored in this epoch
      have heq := hknown hm
      have hstatus := hw.seen hheld.2 hm
      have hnow := of_decide_eq_true hv
      have hle := hstatus.setUp
      have hle' : w.stored h.desc ≤ w.base.globalEpoch := hstatus.stored
      show w.stored h.desc = w.setUp h.desc
      omega
  | decide d verdict =>
    exact hgo _ _ hbase
      (calm_desc w t _ (decide_epoch _ d verdict) (decide_decides _ d verdict).2.2)
      (.inr ⟨_,rfl,trivial⟩)
  | cleanLoad =>
    simp only [tryComplete] at hbase ⊢
    split at hbase
    next hm =>
      rw [if_pos hm]
      exact hgo _ _ hbase (calm_goto w t _) (.inr ⟨_,rfl,trivial⟩)
    next hm =>
      rw [if_neg hm]
      exact hgo _ _ hbase (calm_goto w t _) (.inl rfl)
  | cleanRead => exact hgo _ _ hbase (calm_goto w t _) (.inr ⟨_,rfl,trivial⟩)
  | cleanCas d v =>
    obtain ⟨hdescs,hpc,hg⟩ := cleanup_descs w.base h.desc d v
    refine hgo _ h.done hbase ⟨hg,?_,?_,rfl,rfl,rfl⟩ (.inl rfl)
    · simp only [tryComplete,goto_pc,hpc]
    · intro D
      have hsame : (tryComplete w.base t h (.cleanCas d v)).descs D = w.base.descs D := by
        simp only [tryComplete,goto_descs,hdescs]
      exact ⟨by rw [hsame],.inl (by rw [var,var,hsame])⟩

theorem Inv.load_epoch {k : Option Call}
    (hbase : Dcss.Inv (w.base.goto t (.incrementSn k w.base.globalEpoch))) :
    Inv n { w with
      base := w.base.goto t (.incrementSn k w.base.globalEpoch)
      opened := update w.opened t w.base.globalEpoch } := by
  refine hw.turn (t := t) hbase rfl (fun D => .same (.inl rfl) rfl rfl rfl) ?_ ?_ ?_ ?_ ?_
    (fun heq => by omega) (fun D hD => .inl hD)
  · intro u hu
    simp [hu]
  · intro u
    simp only [update_apply]
    split
    · exact .inr rfl
    · exact .inl rfl
  · intro u hu
    exact ⟨update_of_ne hu _ _,rfl,.inl rfl⟩
  · intro _
    simp [Owns]
  · intro h stage hp
    simp at hp

theorem Inv.own {E : Desc} {p : Pc} (hbase : Dcss.Inv w'.base) (hg : w'.epoch = w.epoch)
    (hdescs : w'.base.descs = update w.base.descs t E)
    (hpc : w'.base.pc = update w.base.pc t p) (hopened : w'.opened = w.opened)
    (hset : ∀ u ≠ t, w'.setUp u = w.setUp u ∧ w'.stored u = w.stored u)
    (htreated : w'.treated = w.treated) (hself : Turn n w w' t) (howner : Owns w' t p)
    (hhelp : ∀ h stage, p ≠ .help h stage) : Inv n w' := by
  have hothers : ∀ u ≠ t, w'.base.descs u = w.base.descs u := by
    intro u hu
    rw [hdescs,update_of_ne hu]
  have hp : w'.base.pc t = p := by rw [hpc,update_self]
  refine hw.turn (t := t) hbase hg ?_ ?_ (fun u => .inl (by rw [hopened])) ?_ ?_ ?_
    (fun heq => by omega) (fun D hD => .inl (htreated ▸ hD))
  · intro u
    by_cases hu : u = t
    · rw [hu]
      exact hself
    · exact .same (.inl (by rw [var,var,hothers u hu])) (by rw [hothers u hu]) (hset u hu).1
        (hset u hu).2
  · intro u hu
    rw [hpc,update_of_ne hu]
  · intro u hu
    exact ⟨by rw [hopened],by rw [hothers u hu],.inl (by rw [var,var,hothers u hu])⟩
  · intro _
    rw [hp]
    exact howner
  · intro h stage heq
    exact absurd (hp.symm.trans heq) (hhelp h stage)

theorem Inv.reset_var {base : State} {k : Option Call} {e : Nat}
    (hp : w.base.pc t = .resetVar k e) (hbase : Dcss.Inv base)
    (hg : base.globalEpoch = w.base.globalEpoch)
    (hdescs : base.descs =
      update w.base.descs t { w.base.descs t with var := ⟨none,0⟩ })
    (hpc : base.pc = update w.base.pc t (.setUpEpoch k e)) :
    Inv n { w with base := base } := by
  have hnone : ({ w with base := base } : World).var t = ⟨none,0⟩ := by
    simp only [var,hdescs,update_self]
  have howner := hw.owner t ht
  rw [hp] at howner
  exact hw.own ht hbase hg hdescs hpc rfl (fun _ _ => ⟨rfl,rfl⟩) rfl (.cleared hnone)
    ⟨howner,hnone⟩ (by simp)

theorem Inv.set_up_epoch {base : State} {k : Option Call} {e : Nat}
    (hp : w.base.pc t = .setUpEpoch k e) (hbase : Dcss.Inv base)
    (hg : base.globalEpoch = w.base.globalEpoch)
    (hdescs : base.descs = update w.base.descs t { w.base.descs t with epoch := e })
    (hpc : base.pc = update w.base.pc t (begun k)) :
    Inv n { w with base := base } := by
  have howner := hw.owner t ht
  rw [hp] at howner
  obtain ⟨he,hvar⟩ := howner
  have hnone : ({ w with base := base } : World).var t = ⟨none,0⟩ := by
    simp only [var,hdescs,update_self]
    exact hvar
  have hepoch : (base.descs t).epoch = w.opened t := by
    rw [hdescs,update_self]
    exact he
  refine hw.own ht hbase hg hdescs hpc rfl (fun _ _ => ⟨rfl,rfl⟩) rfl (.cleared hnone) ?_ ?_
  · cases k <;> exact hepoch
  · cases k <;> simp [begun]

theorem Inv.set_var {call : Call} {c : Nat} (hp : w.base.pc t = .setVar call c) : Inv n { w with
      base := (w.base.setDesc t { w.base.descs t with var := ⟨some call.word,c + 1⟩ }).goto t
        (.setOld call c)
      setUp := update w.setUp t (w.opened t)
      stored := update w.stored t w.base.globalEpoch } := by
  have howner := hw.owner t ht
  rw [hp] at howner
  refine hw.own ht (hw.base.set_var hp) rfl rfl rfl rfl ?_ rfl ?_ ?_ (by simp)
  · intro u hu
    exact ⟨update_of_ne hu _ _,update_of_ne hu _ _⟩
  · refine .fresh ht ?_ ?_ ?_ ?_ ?_
    · simp [var]
    · simp only [goto_descs,set_desc_descs,update_self]
      exact howner
    · simp only [update_self]
      exact hw.opened t
    · simp only [update_self]
      rfl
    · intro d hheld
      simp only [var,goto_descs,set_desc_descs,update_self]
      exact hw.base.fresh_use hp hheld
  · simp only [Owns,goto_descs,set_desc_descs,update_self]
    exact howner

theorem Inv.access {base : State}
    (h : Dcss.access .nonblocking w.base t = some base) : Inv n (w.record t base) := by
  have hbase := access_inv hw.base h
  have howner := hw.owner t ht
  have hgo : ∀ p, Dcss.Inv (w.base.goto t p) → Owns w t p →
      (∀ h stage, p = .help h stage → stage = .load) →
      Inv n { w with base := w.base.goto t p } := by
    intro p hb hown hhelp
    refine hw.calm hb (calm_goto w t p) (fun _ => hown) ?_ (fun heq => by omega)
      (fun D hD => .inl hD)
    intro h stage heq
    rw [hhelp h stage heq]
    trivial
  have hset : ∀ p E, Dcss.Inv ((w.base.setDesc t E).goto t p) →
      E.epoch = (w.base.descs t).epoch → E.var = w.var t → Owns w t p →
      (∀ h stage, p ≠ .help h stage) →
      Inv n { w with base := (w.base.setDesc t E).goto t p } := by
    intro p E hb hepoch hvar hown hhelp
    exact hw.calm hb (calm_desc w t p hepoch (.inl hvar)) (fun _ => hown)
      (fun h stage heq => absurd heq (hhelp h stage)) (fun heq => by omega)
      (fun D hD => .inl hD)
  unfold Dcss.access at h
  split at h
  next => cases h
  next hp =>
    cases h
    rw [hp] at howner
    simp only [record,hp]
    exact hset _ _ hbase rfl rfl howner (by simp)
  next hp =>
    cases h
    simp only [record,hp]
    exact hw.reset_var ht hp hbase rfl rfl rfl
  next hp =>
    cases h
    simp only [record,hp]
    exact hw.load_epoch ht hbase
  next hp =>
    cases h
    simp only [record,hp]
    exact hw.set_up_epoch ht hp hbase rfl rfl rfl
  next hp =>
    rw [hp] at howner
    simp only [record,hp]
    simp only at h
    split at h <;> cases h
    · exact hgo _ hbase howner (by simp)
    · exact hw.calm hbase ⟨rfl,rfl,fun _ => ⟨rfl,.inl rfl⟩,rfl,rfl,rfl⟩ (fun _ => howner)
        (by simp) (fun heq => by omega) (fun D hD => .inl hD)
  next hp =>
    rw [hp] at howner
    simp only [record,hp]
    simp only at h
    split at h
    · cases h
      exact hgo _ hbase howner (by simp)
    · split at h <;> cases h <;> exact hgo _ hbase howner (by simp)
  next hp =>
    cases h
    simp only [record,hp]
    exact hw.set_var ht hp
  next hp =>
    cases h
    rw [hp] at howner
    simp only [record,hp]
    exact hset _ _ hbase rfl rfl howner (by simp)
  next hp =>
    cases h
    rw [hp] at howner
    simp only [record,hp]
    exact hset _ _ hbase rfl rfl howner (by simp)
  next hp =>
    rw [hp] at howner
    simp only [record,hp]
    split at h <;> cases h
    · refine hw.calm hbase ⟨rfl,rfl,fun _ => ⟨rfl,.inl rfl⟩,rfl,rfl,rfl⟩ (fun _ => howner)
        ?_ (fun heq => by omega) (fun D hD => .inl hD)
      intro h stage heq
      cases heq
      trivial
    · exact hgo _ hbase howner (by simp)
  next hp =>
    cases h
    rw [hp] at howner
    simp only [record,hp]
    exact hgo _ hbase howner (by simp)
  next hp =>
    cases h
    rw [hp] at howner
    simp only [record,hp]
    exact hw.calm hbase ⟨rfl,rfl,fun _ => ⟨rfl,.inl rfl⟩,rfl,rfl,rfl⟩ (fun _ => howner)
      (by simp) (fun heq => by omega) (fun D hD => .inl hD)
  next hp =>
    cases h
    simp only [record,hp]
    exact hw.try_complete ht hp
  next hp =>
    cases h
    rw [hp] at howner
    simp only [record,hp]
    exact hgo _ hbase howner (by simp)
  next hp =>
    rw [hp] at howner
    simp only [record,hp]
    split at h <;> cases h <;> exact hgo _ hbase howner (by simp)
  next D d hp =>
    cases h
    rw [hp] at howner
    simp only [record,hp]
    exact hw.calm hbase (calm_desc w t _ (decide_epoch _ d false) (abort_decides _ d).2.2)
      (fun _ => howner) (by simp) (fun heq => by omega) (fun D hD => .inl hD)

theorem Inv.start {r : Request} {base : State} (hp : w.base.pc t = .idle) (hr : work r = true)
    (h : Dcss.start .nonblocking w.base t r = some base) : Inv n { w with base := base } := by
  have hbase := start_inv hw.base hp h
  have howner := hw.owner t ht
  rw [hp] at howner
  have hgo : ∀ p, Calm w { w with base := base } t p → Owns w t p →
      (∀ h stage, p ≠ .help h stage) → Inv n { w with base := base } := by
    intro p hc hown hhelp
    exact hw.calm hbase hc (fun _ => hown) (fun h stage heq => absurd heq (hhelp h stage))
      (fun heq => by omega) (fun D hD => .inl hD)
  cases r with
  | beginOp =>
    simp only [Dcss.start] at h
    split at h <;> cases h
    exact hgo _ (calm_goto w t _) howner (by simp [System.begin])
  | finish =>
    simp only [Dcss.start] at h
    split at h <;> cases h
    refine hgo .idle ⟨rfl,?_,fun _ => ⟨rfl,.inl rfl⟩,rfl,rfl,rfl⟩ howner (by simp)
    exact (update_eq_self_iff.mpr hp.symm).symm
  | load =>
    cases h
    exact hgo _ (calm_goto w t _) howner (by simp)
  | casVerify =>
    simp only [Dcss.start] at h
    split at h <;> cases h
    · exact hgo (.loadEpoch _) ⟨rfl,rfl,fun _ => ⟨rfl,.inl rfl⟩,rfl,rfl,rfl⟩ howner (by simp)
    · exact hgo (.casLoad _) ⟨rfl,rfl,fun _ => ⟨rfl,.inl rfl⟩,rfl,rfl,rfl⟩ howner (by simp)
  | tryAbort => cases hr

end

theorem Inv.done {base : State} (hbase : Dcss.Inv base)
    (hcalm : Calm w { w with base := base } n .idle)
    (hlate : ¬({ w with base := base } : World).Late D) :
    Inv n { w with base := base, treated := insert D w.treated } := by
  refine hw.calm hbase ⟨hcalm.epoch,hcalm.pc,hcalm.core,rfl,rfl,rfl⟩
    (fun h => absurd h (lt_irrefl n)) (by simp) (fun _ => trivial) ?_
  intro u hu
  rcases Finset.mem_insert.mp hu with rfl | hu
  · exact .inr hlate
  · exact .inl hu

theorem Inv.ripe_status (hr : w.Ripe D) : Status n w D := by
  apply hw.status
  intro hnone
  have hp := hr.1
  rw [hw.blank D hnone] at hp
  cases hp

theorem Inv.late_epoch (hl : w.Late D) : (w.base.descs D).epoch + 1 = w.epoch := by
  have hdue := hw.due D hl.1
  have hlt := hl.2
  rw [(hw.ripe_status hl.1).epoch]
  omega

theorem Inv.advance_access {base : State}
    (h : Dcss.access .nonblocking w.base n = some base) : Inv n (w.treat n base) := by
  have hbase := access_inv hw.base h
  have habort := hw.advancer
  have hgo : ∀ p, p ≠ .idle → (∀ h stage, p ≠ .help h stage) → Aborts w p →
      base = w.base.goto n p → Inv n (w.treat n base) := by
    intro p hidle hhelp ha heq
    subst heq
    rw [treat_busy (p := p) (by simp) hidle]
    exact hw.calm hbase (calm_goto w n p) (fun h => absurd h (lt_irrefl n))
      (fun h stage heq => absurd heq (hhelp h stage))
      (fun _ => Turn.aborts (n := n) (calm_goto w n p).turn rfl ha) (fun D hD => .inl hD)
  cases hp : w.base.pc n with
  | idle =>
    simp only [Dcss.access,hp] at h
    cases h
  | abortLoad D e =>
    simp only [Dcss.access,hp] at h
    rw [hp] at habort
    cases h
    exact hgo (.abortEpoch D e (w.var D)) (by simp) (by simp) ⟨habort,fun _ => rfl⟩ rfl
  | abortEpoch D e d =>
    simp only [Dcss.access,hp] at h
    rw [hp] at habort
    split at h
    next =>
      cases h
      exact hgo (.abortCas D d) (by simp) (by simp) habort.2 rfl
    next hno =>
      cases h
      rw [treat_idle (D := D) (by simp) (by rw [hp]; rfl)]
      refine hw.done hbase (calm_goto w n .idle) ?_
      intro hl
      have hl : w.Late D := hl
      have hd := habort.2 hl
      apply hno
      refine ⟨?_,hd ▸ hl.1.1⟩
      have := hw.late_epoch hl
      have := habort.1
      omega
  | abortCas D d =>
    simp only [Dcss.access,hp] at h
    rw [hp] at habort
    cases h
    rw [treat_idle (D := D) (by simp) (by rw [hp]; rfl)]
    have hcalm := calm_desc w n .idle (decide_epoch (w.base.descs D) d false)
      (abort_decides (w.base.descs D) d).2.2
    refine hw.done hbase hcalm ?_
    intro hl
    -- the word is as it was, and `abort` was made for it
    obtain ⟨hl',-⟩ := (hcalm.turn D : Turn n _ _ D).late rfl hl
    have hp' := hl.1.1
    rw [habort hl',var,goto_descs,set_desc_descs,update_self] at hp'
    exact absurd (hp'.symm.trans (abort_own hl'.1.1)) (by simp)
  | _ =>
    rw [hp] at habort
    cases habort

theorem Inv.advance (hpc : w.base.pc n = .idle) (hall : ∀ i < n, i ∈ w.treated) : Inv n { w with
      base := { w.base with globalEpoch := w.base.globalEpoch + 1 }
      treated := ∅ } where
  base := ⟨hw.base.state,hw.base.installed,hw.base.live,hw.base.owner,hw.base.helper⟩
  positive := Nat.succ_pos _
  opened t := Nat.le_succ_of_le (hw.opened t)
  blank := hw.blank
  status D hv := by
    obtain ⟨hthread,hepoch,hset,hstored⟩ := hw.status D hv
    exact ⟨hthread,hepoch,hset,Nat.le_succ_of_le hstored⟩
  owner := hw.owner
  helper := hw.helper
  advancer := by
    simp only [hpc]
    trivial
  due D hr := by
    have hr : w.Ripe D := hr
    have hlate := hw.treated D (hall D (hw.ripe_status hr).thread)
    have hnow : ¬w.setUp D < w.epoch := fun hlt => hlate ⟨hr,hlt⟩
    show w.epoch + 1 ≤ w.setUp D + 1
    omega
  treated D hD := by cases hD

omit hw in
theorem step_base {a : Act} (h : step n w a = some w') :
    ∃ b, Dcss.step .nonblocking w.base b = some w'.base := by
  cases a with
  | start | tryAbort | advance =>
    simp only [step] at h
    split at h
    · obtain ⟨base,hb,rfl⟩ := map_eq_some_iff.mp h
      exact ⟨_,hb⟩
    · cases h
  | access =>
    simp only [step] at h
    split at h
    · obtain ⟨base,hb,rfl⟩ := map_eq_some_iff.mp h
      exact ⟨_,by rw [hb,record_base]⟩
    · cases h
  | advancer =>
    obtain ⟨base,hb,rfl⟩ := map_eq_some_iff.mp h
    exact ⟨_,by rw [hb,treat_base]⟩

theorem step_inv {a : Act} (h : step n w a = some w') : Inv n w' := by
  cases a with
  | start =>
    simp only [step] at h
    split at h
    next hok =>
      obtain ⟨base,hb,rfl⟩ := map_eq_some_iff.mp h
      simp only [Dcss.step] at hb
      split at hb
      next hp => exact hw.start hok.1 hp hok.2 hb
      next => cases hb
    next => cases h
  | access =>
    simp only [step] at h
    split at h
    next ht =>
      obtain ⟨base,hb,rfl⟩ := map_eq_some_iff.mp h
      exact hw.access ht hb
    next => cases h
  | tryAbort D =>
    simp only [step] at h
    split at h
    next =>
      obtain ⟨base,hb,rfl⟩ := map_eq_some_iff.mp h
      simp only [Dcss.step] at hb
      split at hb
      next hp =>
        have hbase := start_inv hw.base hp hb
        cases hb
        refine hw.calm hbase (calm_goto w n _) (fun h => absurd h (lt_irrefl n)) (by simp) ?_
          (fun D hD => .inl hD)
        intro _
        have hpos : 0 < w.base.globalEpoch := hw.positive
        show w.base.globalEpoch = w.base.globalEpoch - 1 + 1
        omega
      next => cases hb
    next => cases h
  | advancer =>
    obtain ⟨base,hb,rfl⟩ := map_eq_some_iff.mp h
    exact hw.advance_access hb
  | advance =>
    simp only [step] at h
    split at h
    next hok =>
      obtain ⟨base,hb,rfl⟩ := map_eq_some_iff.mp h
      cases hb
      exact hw.advance hok.1 hok.2
    next => cases h

theorem commit_ripe {a : Act} (h : step n w a = some w')
    (hpre : (w.var D).inProgress = true) (hpost : (w'.var D).committed = true) : w.Ripe D := by
  obtain ⟨b,hb⟩ := step_base h
  have hsame : (w'.var D) ≠ w.var D := by
    intro heq
    rw [heq] at hpost
    simp only [LinVar.inProgress,LinVar.committed,decide_eq_true_eq] at hpre hpost
    omega
  have hown : ∀ E, w'.base.descs = update w.base.descs b.tid E →
      (E.var = (w.base.descs b.tid).var ∨ E.var.committed = false) → False := by
    intro E hd hE
    by_cases hD : D = b.tid
    · subst hD
      have hvar : w'.var b.tid = E.var := by rw [var,hd,update_self]
      rcases hE with hE | hE
      · exact hsame (hvar.trans hE)
      · rw [hvar,hE] at hpost
        cases hpost
    · apply hsame
      rw [var,var,hd,update_of_ne hD]
  cases step_kind hw.base hb with
  | skip _ descs | install _ _ _ _ descs
  | clean _ _ _ _ _ _ descs => exact absurd (by rw [var,var,descs]) hsame
  | move _ here | invoke _ _ here | giveBack _ _ here => exact absurd (here.same D).2.2 hsame
  | decide D' d verdict _ _ descs _ _ _ _ commit =>
    by_cases hD : D = D'
    · subst hD
      have hvar : w'.var D = ((w.base.descs D).decide d verdict).var := by
        rw [var,descs,update_self]
      by_cases hd : w.var D = d.undecided
      · cases verdict with
        | false =>
          have habort : ((w.base.descs D).abort d).var = ⟨d.val,d.undecided.cnt + 2⟩ :=
            congrArg Desc.var (if_pos hd)
          rw [hvar,Desc.decide,if_neg (by simp),habort] at hpost
          have hstate : (d.cnt / 4 * 4 + 1 + 2) % 4 = 2 := of_decide_eq_true hpost
          omega
        | true =>
          obtain ⟨help,-,hp,rfl⟩ := commit rfl
          refine ⟨hpre,hw.helper _ help _ hp ?_⟩
          rw [hd]
          exact ⟨by simp only [LinVar.undecided]; omega,rfl⟩
      · exfalso
        apply hsame
        rw [hvar]
        cases verdict
        · exact congrArg Desc.var (if_neg hd)
        · exact congrArg Desc.var (if_neg hd)
    · exact absurd (by rw [var,var,descs,update_of_ne hD]) hsame
  | resetVar _ _ _ _ descs => exact absurd (hown _ descs (.inr rfl)) id
  | setVar _ _ _ descs _ old =>
    have howner := hw.base.owner b.tid
    rw [old] at howner
    have heven := howner.2.1.even
    refine absurd (hown _ descs (.inr ?_)) id
    simp only [LinVar.committed,decide_eq_false_iff_not]
    omega
  | setOld _ _ _ descs | setNew _ _ _ descs => exact absurd (hown _ descs (.inl rfl)) id

end

/-- Whenever a status word goes from in progress to committed, the global epoch is the one
in which the operation that has stored it began, or the next. -/
theorem no_late_commit {ms : List (Move World Act)} {g : Nat} {val : Nat → Nat}
    (run : Run (step n) (fun _ _ => True) (init g val) ms w) :
    ∀ m ∈ ms, ∀ D, (m.pre.var D).inProgress = true → (m.post.var D).committed = true →
      m.pre.epoch = m.pre.setUp D ∨ m.pre.epoch = m.pre.setUp D + 1 := by
  intro m hm D hpre hpost
  obtain ⟨hw,-,hstep⟩ := run.each (Inv n) (init_inv n g val)
    (fun _ _ _ hw _ h => step_inv hw h) m hm
  have hripe := commit_ripe hw hstep hpre hpost
  have hstatus := hw.ripe_status hripe
  have hdue := hw.due D hripe
  have hset := hstatus.setUp
  have hstored := hstatus.stored
  omega

/-- A thread that has checked its epoch commits after the advancer has treated it and gone on. -/
theorem no_late_commit_next : ∃ ms w m,
    Run (step 1) (fun _ _ => True) (init 0 fun _ => 0) ms w ∧ m ∈ ms ∧
      (m.pre.var 0).inProgress = true ∧ (m.post.var 0).committed = true ∧
      m.pre.epoch = initEpoch + 1 ∧
      (m.pre.epoch = m.pre.setUp 0 ∨ m.pre.epoch = m.pre.setUp 0 + 1) := by
  have hend : ((play (step 1) (init 0 fun _ => 0)
      ([.start 0 (.casVerify 7 0 5)] ++ replicate 12 (.access 0) ++
        [.tryAbort 0,.advancer,.advancer,.advance])).bind fun w =>
      (step 1 w (.access 0)).map fun w' =>
        ((w.var 0).inProgress,(w'.var 0).committed,w.epoch)) =
      some (true,true,initEpoch + 1) := by
    decide +kernel
  obtain ⟨w,hplay,hlast⟩ := bind_eq_some_iff.mp hend
  obtain ⟨w',hstep,hfacts⟩ := map_eq_some_iff.mp hlast
  simp only [Prod.mk.injEq] at hfacts
  obtain ⟨hpre,hpost,hepoch⟩ := hfacts
  obtain ⟨ms,run⟩ := Run.reach .nil hplay
  have run' := run.snoc trivial hstep
  exact ⟨_,w',_,run',mem_append_right ms (mem_singleton_self _),hpre,hpost,hepoch,
    no_late_commit run' _ (mem_append_right ms (mem_singleton_self _)) 0 hpre hpost⟩

end World

end Montage.Dcss
