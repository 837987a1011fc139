import Montage.Dcss.Model

namespace Montage.Dcss
open Library Function

variable {s s' : State} {words words' : Nat → LinVar Nat} {D D' : Desc} {p p' : Pc} {t : Nat}
  {d var var' : LinVar (Option Nat)} {stage stage' : Stage} {sys : System}

@[simp] theorem goto_words (s : State) (t : Nat) (p : Pc) : (s.goto t p).words = s.words := rfl
@[simp] theorem goto_descs (s : State) (t : Nat) (p : Pc) : (s.goto t p).descs = s.descs := rfl
@[simp] theorem goto_pc (s : State) (t : Nat) (p : Pc) :
    (s.goto t p).pc = update s.pc t p := rfl
@[simp] theorem set_desc_descs (s : State) (t : Nat) (D : Desc) :
    (s.setDesc t D).descs = update s.descs t D := rfl
@[simp] theorem set_word_words (s : State) (w : Nat) (v : LinVar Nat) :
    (s.setWord w v).words = update s.words w v := rfl

def LinVar.Decided (d : LinVar α) : Prop := d.cnt % 4 = 2 ∨ d.cnt % 4 = 3

theorem LinVar.Match.symm {a b : LinVar α} (h : a.Match b) : b.Match a := ⟨h.1.symm,h.2.symm⟩

theorem LinVar.Match.trans {a b c : LinVar α} (h : a.Match b) (h' : b.Match c) : a.Match c :=
  ⟨h.1.trans h'.1,h.2.trans h'.2⟩

section
variable (words : Nat → LinVar Nat)

/-- The descriptor `t`, set up for word `w` under the count `4*m`, is not installed there
and never will be again. -/
def Dead (t w m : Nat) : Prop :=
  4 * m + 1 < (words w).cnt ∨ (words w).cnt = 4 * m + 1 ∧ (words w).val ≠ t

def Quiet (t : Nat) (var : LinVar (Option Nat)) : Prop :=
  ∀ w, var.val = some w → Dead words t w (var.cnt / 4)

structure Loaded (call : Call) (c : Nat) : Prop where
  even : c % 4 = 0
  le : c ≤ (words call.word).cnt
  same : (words call.word).cnt = c → (words call.word).val = call.expected

/-- The caller has stored `var` and not yet installed the descriptor. Its state may have
been decided already by a thread that still has a pointer to the descriptor. -/
structure SetUp (var : LinVar (Option Nat)) (call : Call) (c : Nat) :
    Prop extends Loaded words call c where
  val : var.val = some call.word
  cnt : var.cnt / 4 = c / 4

/-- The caller has installed its descriptor, which is still there unless it is decided. -/
structure Mine (D : Desc) (t : Nat) (call : Call) : Prop where
  val : D.var.val = some call.word
  old : D.oldVal = call.expected
  new : D.newVal = call.desired
  there : words call.word = ⟨t,4 * (D.var.cnt / 4) + 1⟩ ∨
    4 * (D.var.cnt / 4) + 1 < (words call.word).cnt ∧ D.var.Decided

def Stage.held : Stage → Option (LinVar (Option Nat))
  | .load => none
  | .epoch d | .check d _ | .decide d _ | .cleanLoad d | .cleanRead d | .cleanCas d _ => some d

def Owner (D : Desc) (t : Nat) : Pc → Prop
  | .setVar call c => Quiet words t D.var ∧ Loaded words call c ∧
      (D.var.val = some call.word → D.var.cnt / 4 < c / 4)
  | .setOld call c => SetUp words D.var call c
  | .setNew call c => SetUp words D.var call c ∧ D.oldVal = call.expected
  | .install call c => SetUp words D.var call c ∧ D.oldVal = call.expected ∧
      D.newVal = call.desired
  | .readStatus call => Mine words D t call ∧ Quiet words t D.var ∧ D.var.Decided
  | .help h stage =>
    match h.after with
    | .check call => Mine words D t call ∧ h.desc = t ∧ h.word = call.word ∧
        ∀ d, stage.held = some d → d.Match D.var
    | _ => Quiet words t D.var
  | _ => Quiet words t D.var

/-- A state `d` that was once loaded from descriptor `t` is still its state up to the
decision, or belongs to a use that is over. It is not mistaken for the use that the
thread `t`, now at `p`, is about to set up. -/
def Held (t : Nat) (var : LinVar (Option Nat)) (p : Pc)
    (d : LinVar (Option Nat)) : Prop :=
  d.Match var ∨ Quiet words t d ∧
    ∀ call c, p = .setVar call c → d.val = some call.word → d.cnt / 4 < c / 4

def Helper (t : Nat) (var : LinVar (Option Nat)) (p : Pc)
    (word : Nat) : Stage → Prop
  | .load => True
  | .epoch d | .check d _ | .decide d _ => Held words t var p d ∧ d.val = some word
  | .cleanLoad d => Held words t var p d ∧ d.val = some word ∧ (d.Match var → var.Decided)
  | .cleanRead d | .cleanCas d _ =>
    Held words t var p d ∧ d.val = some word ∧ d.Decided ∧ (d.Match var → var = d)

end

def Pc.posted : Pc → Option Call
  | .help h _ => h.after.own
  | _ => none

theorem After.own_eq {a : After} {call : Call} (h : a.own = some call) : a = .check call := by
  cases a <;> cases h
  rfl

structure Inv (s : State) : Prop where
  state : ∀ w, (s.words w).cnt % 4 = 0 ∨ (s.words w).cnt % 4 = 1
  installed : ∀ w, (s.words w).cnt % 4 = 1 → ∃ call, (s.pc (s.words w).val).posted = some call ∧
    call.word = w ∧ (s.descs (s.words w).val).var.cnt / 4 = (s.words w).cnt / 4
  live : ∀ t w, (s.descs t).var.val = some w → (s.descs t).var.cnt % 4 ≠ 0
  owner : ∀ t, Owner s.words (s.descs t) t (s.pc t)
  helper : ∀ t h stage, s.pc t = .help h stage →
    Helper s.words h.desc (s.descs h.desc).var (s.pc h.desc) h.word stage

theorem init_inv (g : Nat) (val : Nat → Nat) : Inv (init g val) where
  state w := .inl rfl
  installed w h := by cases h
  live t w h := by cases h
  owner t w h := by cases h
  helper t h stage hp := by cases hp

def Turns (a b : LinVar Nat) : Prop :=
  b = a ∨ a.cnt % 4 = 0 ∧ b.cnt = a.cnt + 1 ∨ a.cnt % 4 = 1 ∧ b.cnt = a.cnt + 3

theorem Turns.le {a b : LinVar Nat} (h : Turns a b) : a.cnt ≤ b.cnt ∧ (b.cnt = a.cnt → b = a) := by
  rcases h with rfl | ⟨-,h⟩ | ⟨-,h⟩
  · exact ⟨Nat.le_refl _,fun _ => rfl⟩
  · exact ⟨by omega,by omega⟩
  · exact ⟨by omega,by omega⟩

theorem Dead.turn (h : Dead words t w m) (hw : Turns (words w) (words' w)) :
    Dead words' t w m := by
  obtain ⟨hle,hsame⟩ := hw.le
  unfold Dead at h ⊢
  by_cases heq : (words' w).cnt = (words w).cnt
  · rwa [hsame heq]
  · omega

theorem Quiet.turn (h : Quiet words t var) (hw : ∀ w, Turns (words w) (words' w)) :
    Quiet words' t var := fun w hv => (h w hv).turn (hw w)

theorem Quiet.match (h : Quiet words t var) (hm : var'.Match var) : Quiet words t var' := by
  intro w hv
  rw [hm.1]
  exact h w (hm.2.symm.trans hv)

theorem Loaded.turn (h : Loaded words call c) (hw : ∀ w, Turns (words w) (words' w)) :
    Loaded words' call c := by
  obtain ⟨hle,hsame⟩ := (hw call.word).le
  have hle' := h.le
  refine ⟨h.even,by omega,?_⟩
  intro heq
  have heq' : (words' call.word).cnt = (words call.word).cnt := by omega
  rw [hsame heq']
  exact h.same (by omega)

def Decides (var var' : LinVar (Option Nat)) : Prop :=
  var' = var ∨ var.cnt % 4 = 1 ∧ var'.Match var ∧ var'.Decided

theorem Decides.match (h : Decides var var') : var'.Match var := by
  rcases h with rfl | ⟨-,h,-⟩
  · exact ⟨rfl,rfl⟩
  · exact h

theorem Decides.eq (h : Decides var var') (hd : var.Decided) : var' = var := by
  rcases h with h | ⟨hp,-⟩
  · exact h
  · unfold LinVar.Decided at hd
    omega

structure Rely (words words' : Nat → LinVar Nat) (D D' : Desc) (u : Nat) : Prop where
  turns : ∀ w, Turns (words w) (words' w)
  old : D'.oldVal = D.oldVal
  new : D'.newVal = D.newVal
  var : Decides D.var D'.var
  clean : ∀ w m, words w = ⟨u,4 * m + 1⟩ → words' w = words w ∨ D.var.Decided

theorem SetUp.rely (h : SetUp words D.var call c) (r : Rely words words' D D' u) :
    SetUp words' D'.var call c where
  toLoaded := h.toLoaded.turn r.turns
  val := r.var.match.2.trans h.val
  cnt := r.var.match.1.trans h.cnt

theorem Mine.rely (h : Mine words D u call) (r : Rely words words' D D' u) :
    Mine words' D' u call := by
  obtain ⟨hcnt,hval⟩ := r.var.match
  obtain ⟨hle,hsame⟩ := (r.turns call.word).le
  refine ⟨hval.trans h.val,r.old.trans h.old,r.new.trans h.new,?_⟩
  rw [hcnt]
  rcases h.there with hw | ⟨hlt,hd⟩
  · rcases r.clean _ _ hw with heq | hd
    · exact .inl (heq.trans hw)
    · by_cases heq : (words' call.word).cnt = (words call.word).cnt
      · exact .inl ((hsame heq).trans hw)
      · rw [hw] at hle heq
        exact .inr ⟨Nat.lt_of_le_of_ne hle (Ne.symm heq),by rwa [r.var.eq hd]⟩
  · exact .inr ⟨Nat.lt_of_lt_of_le hlt hle,by rwa [r.var.eq hd]⟩

theorem Owner.rely (h : Owner words D u p) (r : Rely words words' D D' u) :
    Owner words' D' u p := by
  obtain ⟨hcnt,hval⟩ := r.var.match
  have hquiet : Quiet words u D.var → Quiet words' u D'.var :=
    fun hq => (hq.turn r.turns).match r.var.match
  cases p with
  | setVar =>
    obtain ⟨hq,hl,hlt⟩ := h
    refine ⟨hquiet hq,hl.turn r.turns,?_⟩
    rw [hcnt,hval]
    exact hlt
  | setOld => exact SetUp.rely h r
  | setNew => exact ⟨h.1.rely r,r.old.trans h.2⟩
  | install => exact ⟨h.1.rely r,r.old.trans h.2.1,r.new.trans h.2.2⟩
  | readStatus => exact ⟨h.1.rely r,hquiet h.2.1,by rw [r.var.eq h.2.2]; exact h.2.2⟩
  | help =>
    simp only [Owner] at h ⊢
    split at h
    next =>
      obtain ⟨hm,hdesc,hword,hheld⟩ := h
      exact ⟨hm.rely r,hdesc,hword,fun d hd => (hheld d hd).trans r.var.match.symm⟩
    next => exact hquiet h
  | _ => exact hquiet h

/-- From one state to the next, what was loaded from descriptor `t` stays covered, and is
not mistaken for a new use of it. -/
def Keeps (words words' : Nat → LinVar Nat) (t : Nat) (var var' : LinVar (Option Nat))
    (p p' : Pc) : Prop :=
  ∀ d w, d.val = some w → Held words t var p d → Held words' t var' p' d ∧
    (d.Match var' → d.Match var ∧ (var.Decided → var' = var))

theorem Helper.keep (h : Helper words t var p word stage)
    (k : Keeps words words' t var var' p p') : Helper words' t var' p' word stage := by
  cases stage with
  | load => trivial
  | epoch d | check d _ | decide d _ => exact ⟨(k d _ h.2 h.1).1,h.2⟩
  | cleanLoad d =>
    obtain ⟨hheld,hval,hdecided⟩ := h
    obtain ⟨hheld',hback⟩ := k d _ hval hheld
    refine ⟨hheld',hval,?_⟩
    intro hm
    obtain ⟨hm',hsame⟩ := hback hm
    have hd := hdecided hm'
    rwa [hsame hd]
  | cleanRead d | cleanCas d _ =>
    obtain ⟨hheld,hval,hdecided,heq⟩ := h
    obtain ⟨hheld',hback⟩ := k d _ hval hheld
    refine ⟨hheld',hval,hdecided,?_⟩
    intro hm
    obtain ⟨hm',hsame⟩ := hback hm
    have hvar := heq hm'
    rw [hsame (by rwa [hvar]),hvar]

theorem keeps_decides (hw : ∀ w, Turns (words w) (words' w)) (hv : Decides var var')
    (harm : ∀ call c, p' = .setVar call c → p = .setVar call c ∨
      c = (words' call.word).cnt ∧ c % 4 = 0) :
    Keeps words words' t var var' p p' := by
  intro d w hval hheld
  refine ⟨?_,fun hm => ⟨hm.trans hv.match,hv.eq⟩⟩
  rcases hheld with hm | ⟨hq,hnext⟩
  · exact .inl (hm.trans hv.match.symm)
  · have hq' := hq.turn hw
    refine .inr ⟨hq',?_⟩
    intro call c hp hword
    rcases harm call c hp with hp' | ⟨rfl,heven⟩
    · exact hnext call c hp' hword
    · -- the word's count is past the use that is over
      have := hq' _ hword
      unfold Dead at this
      omega

theorem keeps_store (hq : Quiet words t var) (hp : ∀ call c, p' ≠ .setVar call c)
    (hnew : ∀ d w, d.val = some w → Held words t var p d → ¬ d.Match var') :
    Keeps words words t var var' p p' := by
  intro d w hval hheld
  refine ⟨.inr ⟨?_,fun call c h => absurd h (hp call c)⟩,fun hm => absurd hm (hnew d w hval hheld)⟩
  rcases hheld with hm | ⟨hq',-⟩
  · exact hq.match hm
  · exact hq'

structure Advance (s s' : State) (t : Nat) : Prop where
  pc : ∀ u ≠ t, s'.pc u = s.pc u
  rely : ∀ u ≠ t, Rely s.words s'.words (s.descs u) (s'.descs u) u
  state : ∀ w, (s'.words w).cnt % 4 = 0 ∨ (s'.words w).cnt % 4 = 1
  others : ∀ w, (s'.words w).cnt % 4 = 1 → (s'.words w).val ≠ t → s'.words w = s.words w
  mine : ∀ w, (s'.words w).cnt % 4 = 1 → (s'.words w).val = t →
    ∃ call, (s'.pc t).posted = some call ∧ call.word = w ∧
      (s'.descs t).var.cnt / 4 = (s'.words w).cnt / 4
  live : ∀ w, (s'.descs t).var.val = some w → (s'.descs t).var.cnt % 4 ≠ 0
  owner : Owner s'.words (s'.descs t) t (s'.pc t)
  keeps : ∀ u, Keeps s.words s'.words u (s.descs u).var (s'.descs u).var (s.pc u) (s'.pc u)
  helper : ∀ h stage, s'.pc t = .help h stage →
    Helper s'.words h.desc (s'.descs h.desc).var (s'.pc h.desc) h.word stage

theorem Inv.advance (hs : Inv s) (ha : Advance s s' t) : Inv s' where
  state := ha.state
  installed w hw := by
    by_cases hval : (s'.words w).val = t
    · rw [hval]
      exact ha.mine w hw hval
    · have hsame := ha.others w hw hval
      rw [hsame] at hw hval ⊢
      obtain ⟨call,hposted,hword,hcnt⟩ := hs.installed w hw
      exact ⟨call,by rwa [ha.pc _ hval],hword,
        ((ha.rely _ hval).var.match.1).trans hcnt⟩
  live u w hv := by
    by_cases hu : u = t
    · subst hu
      exact ha.live w hv
    · rcases (ha.rely u hu).var with heq | ⟨-,-,hd⟩
      · rw [heq] at hv ⊢
        exact hs.live u w hv
      · unfold LinVar.Decided at hd
        omega
  owner u := by
    by_cases hu : u = t
    · subst hu
      exact ha.owner
    · rw [ha.pc u hu]
      exact (hs.owner u).rely (ha.rely u hu)
  helper u h stage hp := by
    by_cases hu : u = t
    · subst hu
      exact ha.helper h stage hp
    · rw [ha.pc u hu] at hp
      exact (hs.helper u h stage hp).keep (ha.keeps _)

theorem Owner.posted (h : Owner words D t p) (hp : p.posted = some call) :
    Mine words D t call := by
  cases p with
  | help =>
    simp only [Owner,After.own_eq hp] at h
    exact h.1
  | _ => cases hp

theorem Inv.not_installed (hs : Inv s)
    (h : (s.pc t).posted = none ∨ Quiet s.words t (s.descs t).var) (w : Nat)
    (hw : (s.words w).cnt % 4 = 1) : (s.words w).val ≠ t := by
  intro hval
  obtain ⟨call,hposted,rfl,hcnt⟩ := hs.installed w hw
  rw [hval] at hposted hcnt
  rcases h with hnone | hquiet
  · rw [hnone] at hposted
    cases hposted
  · have hdead := hquiet _ ((hs.owner t).posted hposted).val
    rw [hcnt] at hdead
    unfold Dead at hdead
    omega

theorem turns_refl (words : Nat → LinVar Nat) (w : Nat) : Turns (words w) (words w) := .inl rfl

theorem Inv.move (hs : Inv s) (hw : s'.words = s.words)
    (hd : ∀ u, (s'.descs u).oldVal = (s.descs u).oldVal ∧
      (s'.descs u).newVal = (s.descs u).newVal ∧ Decides (s.descs u).var (s'.descs u).var)
    (hpc : s'.pc = update s.pc t p)
    (arm : ∀ call c, p = .setVar call c → c = (s.words call.word).cnt ∧ c % 4 = 0)
    (leave : ∀ call, (s.pc t).posted = some call → p.posted = some call ∨
      Quiet s.words t (s.descs t).var)
    (owner : Owner s.words (s.descs t) t p)
    (helper : ∀ h stage, p = .help h stage →
      Helper s.words h.desc (s'.descs h.desc).var (s.pc h.desc) h.word stage) : Inv s' := by
  have hrely : ∀ u, Rely s.words s'.words (s.descs u) (s'.descs u) u := by
    intro u
    obtain ⟨hold,hnew,hvar⟩ := hd u
    rw [hw]
    exact ⟨turns_refl _,hold,hnew,hvar,fun _ _ _ => .inl rfl⟩
  have harm : ∀ u call c, s'.pc u = .setVar call c →
      s.pc u = .setVar call c ∨ c = (s'.words call.word).cnt ∧ c % 4 = 0 := by
    intro u call c hu
    rw [hpc,update_apply] at hu
    split at hu
    · rw [hw]
      exact .inr (arm call c hu)
    · exact .inl hu
  refine hs.advance (t := t) ⟨?_,fun u _ => hrely u,?_,?_,?_,?_,?_,?_,?_⟩
  · intro u hu
    rw [hpc,update_of_ne hu]
  · rw [hw]
    exact hs.state
  · rw [hw]
    exact fun _ _ _ => rfl
  · intro w hinst hval
    rw [hw] at hinst hval
    obtain ⟨call,hposted,hword,hcnt⟩ := hs.installed w hinst
    rw [hval] at hposted hcnt
    rcases leave call hposted with hstay | hquiet
    · refine ⟨call,by rwa [hpc,update_self],hword,?_⟩
      rw [hw]
      exact (hd t).2.2.match.1.trans hcnt
    · exact absurd hval (hs.not_installed (.inr hquiet) w hinst)
  · intro w hv
    rcases (hd t).2.2 with heq | ⟨-,-,hdec⟩
    · rw [heq] at hv ⊢
      exact hs.live t w hv
    · unfold LinVar.Decided at hdec
      omega
  · rw [hpc,update_self]
    exact owner.rely (hrely t)
  · intro u
    exact keeps_decides (hrely u).turns (hrely u).var (harm u)
  · intro h stage hp
    rw [hpc,update_self] at hp
    refine (helper h stage hp).keep ?_
    exact keeps_decides (hrely h.desc).turns (.inl rfl) (harm h.desc)

theorem Inv.store (hs : Inv s) (hw : s'.words = s.words) (hd : ∀ u ≠ t, s'.descs u = s.descs u)
    (hpc : s'.pc = update s.pc t p) (hidle : (s.pc t).posted = none)
    (live : ∀ w, (s'.descs t).var.val = some w → (s'.descs t).var.cnt % 4 ≠ 0)
    (owner : Owner s.words (s'.descs t) t p)
    (keeps : Keeps s.words s.words t (s.descs t).var (s'.descs t).var (s.pc t) p)
    (hhelp : ∀ h stage, p ≠ .help h stage) : Inv s' := by
  refine hs.advance (t := t) ⟨?_,?_,?_,?_,?_,live,?_,?_,?_⟩
  · intro u hu
    rw [hpc,update_of_ne hu]
  · intro u hu
    rw [hw,hd u hu]
    exact ⟨turns_refl _,rfl,rfl,.inl rfl,fun _ _ _ => .inl rfl⟩
  · rw [hw]
    exact hs.state
  · rw [hw]
    exact fun _ _ _ => rfl
  · intro w hinst hval
    rw [hw] at hinst hval
    exact absurd hval (hs.not_installed (.inl hidle) w hinst)
  · rw [hpc,update_self,hw]
    exact owner
  · intro u
    rw [hw,hpc]
    by_cases hu : u = t
    · subst hu
      rw [update_self]
      exact keeps
    · rw [update_of_ne hu,hd u hu]
      exact keeps_decides (turns_refl _) (.inl rfl) fun _ _ h => .inl h
  · intro h stage hp
    rw [hpc,update_self] at hp
    exact absurd hp (hhelp h stage)

theorem Inv.write (hs : Inv s) (hw : s'.words = update s.words w v)
    (hd : s'.descs = s.descs) (hpc : s'.pc = update s.pc t p)
    (turn : Turns (s.words w) v)
    (clean : ∀ u ≠ t, ∀ m, s.words w = ⟨u,4 * m + 1⟩ → (s.descs u).var.Decided)
    (value : v.cnt % 4 = 1 → v.val = t)
    (mine : v.cnt % 4 = 1 → ∃ call, p.posted = some call ∧ call.word = w ∧
      (s.descs t).var.cnt / 4 = v.cnt / 4)
    (leave : ∀ call, (s.pc t).posted = some call → p.posted = some call ∨ call.word = w)
    (owner : Owner s'.words (s.descs t) t p)
    (arm : ∀ call c, p ≠ .setVar call c)
    (helper : ∀ h stage, p = .help h stage →
      Helper s'.words h.desc (s.descs h.desc).var (s'.pc h.desc) h.word stage) : Inv s' := by
  have hturns : ∀ x, Turns (s.words x) (s'.words x) := by
    intro x
    rw [hw,update_apply]
    split
    next h => rwa [h]
    next => exact .inl rfl
  refine hs.advance (t := t) ⟨?_,?_,?_,?_,?_,?_,?_,?_,?_⟩
  · intro u hu
    rw [hpc,update_of_ne hu]
  · intro u hu
    refine ⟨hturns,by rw [hd],by rw [hd],by rw [hd]; exact .inl rfl,?_⟩
    intro x m hx
    by_cases hxw : x = w
    · subst hxw
      exact .inr (clean u hu m hx)
    · rw [hw,update_of_ne hxw]
      exact .inl rfl
  · intro x
    have hx := hs.state x
    rcases hturns x with h | ⟨h,h'⟩ | ⟨h,h'⟩
    · rwa [h]
    · omega
    · omega
  · intro x hinst hval
    by_cases hxw : x = w
    · subst hxw
      rw [hw,update_self] at hinst hval
      exact absurd (value hinst) hval
    · rw [hw,update_of_ne hxw]
  · intro x hinst hval
    rw [hd,hpc,update_self]
    by_cases hxw : x = w
    · subst hxw
      rw [hw,update_self] at hinst ⊢
      exact mine hinst
    · rw [hw,update_of_ne hxw] at hinst hval ⊢
      obtain ⟨call,hposted,hword,hcnt⟩ := hs.installed x hinst
      rw [hval] at hposted hcnt
      rcases leave call hposted with hstay | hhere
      · exact ⟨call,hstay,hword,hcnt⟩
      · exact absurd (hword.symm.trans hhere) hxw
  · rw [hd]
    exact hs.live t
  · rw [hpc,update_self,hd]
    exact owner
  · intro u
    rw [hd]
    apply keeps_decides hturns (.inl rfl)
    intro call c hu
    rw [hpc,update_apply] at hu
    split at hu
    · exact absurd hu (arm call c)
    · exact .inl hu
  · intro h stage hp
    rw [hpc,update_self] at hp
    rw [hd]
    exact helper h stage hp

theorem cas_decides {D D' : Desc} (d : LinVar (Option Nat)) (k : Nat) (hk : k = 1 ∨ k = 2)
    (h : D' = if D.var = d.undecided then { D with var := ⟨d.val,d.undecided.cnt + k⟩ } else D) :
    D'.oldVal = D.oldVal ∧ D'.newVal = D.newVal ∧ Decides D.var D'.var := by
  split at h
  next hvar =>
    subst h
    refine ⟨rfl,rfl,.inr ?_⟩
    simp only [hvar,LinVar.undecided]
    refine ⟨by omega,⟨?_,rfl⟩,?_⟩
    · simp only
      omega
    · unfold LinVar.Decided
      simp only
      omega
  next =>
    subst h
    exact ⟨rfl,rfl,.inl rfl⟩

theorem abort_decides (D : Desc) (d : LinVar (Option Nat)) :
    (D.abort d).oldVal = D.oldVal ∧ (D.abort d).newVal = D.newVal ∧
      Decides D.var (D.abort d).var :=
  cas_decides d 2 (.inr rfl) rfl

def Desc.decide (D : Desc) (d : LinVar (Option Nat)) (verdict : Bool) : Desc :=
  if verdict then D.commit d else D.abort d

theorem decide_decides (D : Desc) (d : LinVar (Option Nat)) (verdict : Bool) :
    (D.decide d verdict).oldVal = D.oldVal ∧ (D.decide d verdict).newVal = D.newVal ∧
      Decides D.var (D.decide d verdict).var := by
  cases verdict with
  | true => exact cas_decides d 1 (.inl rfl) rfl
  | false => exact abort_decides D d

theorem decide_decided (D : Desc) (verdict : Bool) (hlive : D.var.cnt % 4 ≠ 0)
    (h : d.Match (D.decide d verdict).var) : (D.decide d verdict).var.Decided := by
  by_cases heq : D.var = d.undecided
  · cases verdict with
    | true => simp only [Desc.decide,Desc.commit,heq,LinVar.Decided,LinVar.undecided]; simp; omega
    | false => simp only [Desc.decide,Desc.abort,heq,LinVar.Decided,LinVar.undecided]; simp; omega
  · have hsame : (D.decide d verdict).var = D.var := by
      cases verdict with
      | true => simp [Desc.decide,Desc.commit,heq]
      | false => simp [Desc.decide,Desc.abort,heq]
    rw [hsame] at h ⊢
    have hopen : D.var.cnt % 4 ≠ 1 := by
      intro hone
      apply heq
      obtain ⟨hcnt,hval⟩ := h
      cases hD : D.var with
      | mk =>
        rw [hD] at hcnt hval hone
        simp only [LinVar.undecided,LinVar.mk.injEq]
        exact ⟨hval.symm,by simp only at hcnt hone; omega⟩
    unfold LinVar.Decided
    omega

theorem Mine.over (h : Mine words D t call)
    (hn : words call.word ≠ ⟨t,4 * (D.var.cnt / 4) + 1⟩) :
    Quiet words t D.var ∧ D.var.Decided := by
  rcases h.there with hw | ⟨hlt,hd⟩
  · exact absurd hw hn
  · refine ⟨?_,hd⟩
    intro w hv
    cases h.val.symm.trans hv
    exact .inl hlt

theorem Inv.proceed (hs : Inv s) (hp : s.pc t = .help h stage)
    (hheld : ∀ d, stage'.held = some d → stage.held = some d ∨ d = (s.descs h.desc).var)
    (helper : Helper s.words h.desc (s.descs h.desc).var (s.pc h.desc) h.word stage') :
    Inv (s.goto t (.help h stage')) := by
  have howner := hs.owner t
  rw [hp] at howner
  refine hs.move (t := t) rfl (fun u => ⟨rfl,rfl,.inl rfl⟩) rfl (fun call c h => by cases h) ?_ ?_ ?_
  · intro call hposted
    rw [hp] at hposted
    exact .inl hposted
  · simp only [Owner] at howner ⊢
    split at howner
    next =>
      obtain ⟨hm,hdesc,hword,hmatch⟩ := howner
      refine ⟨hm,hdesc,hword,?_⟩
      intro d hd
      rcases hheld d hd with hd' | rfl
      · exact hmatch d hd'
      · rw [hdesc]
        exact ⟨rfl,rfl⟩
    next => exact howner
  · intro h' stage'' heq
    cases heq
    exact helper

theorem Owner.done (ho : Owner words D t (.help h stage))
    (hover : ∀ call, h.after = .check call → Quiet words t D.var ∧ D.var.Decided) :
    Owner words D t h.done := by
  unfold Help.done
  simp only [Owner] at ho
  cases hafter : h.after with
  | load | refuse => rw [hafter] at ho; exact ho
  | check call =>
    rw [hafter] at ho
    exact ⟨ho.1,hover call hafter⟩

theorem Help.done_not_help (h : Help) (h' : Help) (stage : Stage) : h.done ≠ .help h' stage := by
  unfold Help.done
  cases h.after <;> exact fun h => by cases h

theorem Help.done_not_set_var (h : Help) (call : Call) (c : Nat) : h.done ≠ .setVar call c := by
  unfold Help.done
  cases h.after <;> exact fun h => by cases h

/-- A `try_complete` returns without an access to the word. The owner's own one does so
only when its use of the descriptor is over. -/
theorem Inv.done (hs : Inv s) (hp : s.pc t = .help h stage)
    (hover : ∀ call, h.after = .check call →
      Quiet s.words t (s.descs t).var ∧ (s.descs t).var.Decided) :
    Inv (s.goto t h.done) := by
  have howner := hs.owner t
  rw [hp] at howner
  refine hs.move (t := t) rfl (fun u => ⟨rfl,rfl,.inl rfl⟩) rfl
    (fun call c heq => absurd heq (h.done_not_set_var call c)) ?_ (howner.done hover)
    (fun h' stage' heq => absurd heq (h.done_not_help h' stage'))
  intro call hposted
  rw [hp] at hposted
  exact .inr (hover call (After.own_eq hposted)).1

theorem undecided_of_match (hm : d.Match var) : d.undecided.cnt = 4 * (var.cnt / 4) + 1 := by
  have := hm.1
  simp only [LinVar.undecided]
  omega

theorem cleanup_cas_hit (hval : d.val = some w) (hw : s.words w = ⟨t,d.undecided.cnt⟩) (v : Nat) :
    cleanupCas s t d v =
      s.setWord w ⟨v,if d.committed then d.cnt + 2 else d.cnt + 1⟩ := by
  simp only [cleanupCas,hval,hw,if_true]

theorem cleanup_cas_miss (hval : d.val = some w) (hw : s.words w ≠ ⟨t,d.undecided.cnt⟩) (v : Nat) :
    cleanupCas s t d v = s := by
  simp only [cleanupCas,hval,hw,if_false]

theorem cleanup_cnt (hd : d.Decided) :
    (if d.committed then d.cnt + 2 else d.cnt + 1) = d.undecided.cnt + 3 := by
  simp only [LinVar.committed,LinVar.undecided,decide_eq_true_eq]
  unfold LinVar.Decided at hd
  split <;> omega

/-- The state a cleaner has loaded is that of the descriptor if the descriptor is still
installed. -/
theorem Helper.current (h : Helper words t var p word (.cleanCas d v))
    (hw : words word = ⟨t,d.undecided.cnt⟩) : var = d := by
  obtain ⟨hheld,hval,-,heq⟩ := h
  apply heq
  rcases hheld with hm | ⟨hq,-⟩
  · exact hm
  · have hdead := hq word hval
    unfold Dead at hdead
    rw [hw] at hdead
    simp only [LinVar.undecided] at hdead
    omega

theorem Inv.cleanup (hs : Inv s) (hp : s.pc t = .help h (.cleanCas d v)) :
    Inv ((cleanupCas s h.desc d v).goto t h.done) := by
  have howner := hs.owner t
  rw [hp] at howner
  have hhelper := hs.helper t h _ hp
  obtain ⟨-,hval,hdecided,-⟩ := id hhelper
  by_cases hw : s.words h.word = ⟨h.desc,d.undecided.cnt⟩
  · have hcur := Helper.current hhelper hw
    have hcnt := cleanup_cnt hdecided
    have hone : d.undecided.cnt % 4 = 1 := by simp only [LinVar.undecided]; omega
    rw [cleanup_cas_hit hval hw,hcnt]
    have hturns : ∀ x, Turns (s.words x)
        (update s.words h.word ⟨v,d.undecided.cnt + 3⟩ x) := by
      intro x
      rw [update_apply]
      split
      next hx => rw [hx,hw]; exact .inr (.inr ⟨hone,rfl⟩)
      next => exact .inl rfl
    refine hs.write (t := t) (w := h.word) rfl rfl rfl ?_ ?_ ?_ ?_ ?_ ?_
      (h.done_not_set_var) (fun h' stage' heq => absurd heq (h.done_not_help h' stage'))
    · rw [hw]
      exact .inr (.inr ⟨hone,rfl⟩)
    · intro u hu m hu'
      rw [hw] at hu'
      rw [← (LinVar.mk.inj hu').1,hcur]
      exact hdecided
    · intro hv
      simp only at hv
      omega
    · intro hv
      simp only at hv
      omega
    · intro call hposted
      rw [hp] at hposted
      simp only [Owner,After.own_eq hposted] at howner
      exact .inr howner.2.2.1.symm
    · have hrely : Rely s.words (update s.words h.word ⟨v,d.undecided.cnt + 3⟩)
          (s.descs t) (s.descs t) t := by
        refine ⟨hturns,rfl,rfl,.inl rfl,?_⟩
        intro x m hx
        by_cases hxw : x = h.word
        · rw [hxw,hw] at hx
          rw [← (LinVar.mk.inj hx).1,hcur]
          exact .inr hdecided
        · rw [update_of_ne hxw]
          exact .inl rfl
      refine (howner.rely hrely).done ?_
      intro call hafter
      have hmine := howner.rely hrely
      simp only [Owner,hafter] at hmine
      obtain ⟨hmine,hdesc,hword,-⟩ := hmine
      refine hmine.over ?_
      rw [← hword,update_self]
      intro heq
      have := congrArg LinVar.cnt heq
      simp only at this
      omega
  · rw [cleanup_cas_miss hval hw]
    refine hs.done hp ?_
    intro call hafter
    simp only [Owner,hafter] at howner
    obtain ⟨hmine,hdesc,hword,hmatch⟩ := howner
    refine hmine.over ?_
    rw [← hword,← undecided_of_match (hmatch d rfl)]
    rwa [hdesc] at hw

theorem Inv.try_complete (hs : Inv s) (hp : s.pc t = .help h stage) :
    Inv (tryComplete s t h stage) := by
  have howner := hs.owner t
  rw [hp] at howner
  have hhelper := hs.helper t h _ hp
  cases stage with
  | load =>
    simp only [tryComplete]
    split
    next hother =>
      refine hs.done hp ?_
      intro call hafter
      simp only [Owner,hafter] at howner
      obtain ⟨hmine,hdesc,hword,-⟩ := howner
      rw [hdesc,hword] at hother
      exact absurd hmine.val hother
    next hval =>
      have hval : (s.descs h.desc).var.val = some h.word := by simpa using hval
      split
      next => exact hs.proceed hp (fun d hd => by cases hd; exact .inr rfl) ⟨.inl ⟨rfl,rfl⟩,hval⟩
      next hopen =>
        refine hs.proceed hp (fun d hd => by cases hd; exact .inr rfl) ⟨.inl ⟨rfl,rfl⟩,hval,?_⟩
        intro _
        have hlive := hs.live h.desc _ hval
        simp only [LinVar.inProgress,decide_eq_true_eq] at hopen
        unfold LinVar.Decided
        omega
  | epoch d | check d | cleanRead d => exact hs.proceed hp (fun d hd => .inl hd) hhelper
  | decide d verdict =>
    obtain ⟨hheld,hval⟩ := hhelper
    have hvar : ∀ u, (update s.descs h.desc ((s.descs h.desc).decide d verdict) u).oldVal =
          (s.descs u).oldVal ∧
        (update s.descs h.desc ((s.descs h.desc).decide d verdict) u).newVal =
          (s.descs u).newVal ∧
        Decides (s.descs u).var
          (update s.descs h.desc ((s.descs h.desc).decide d verdict) u).var := by
      intro u
      rw [update_apply]
      split
      next hu => rw [hu]; exact decide_decides _ d verdict
      next => exact ⟨rfl,rfl,.inl rfl⟩
    refine hs.move (t := t) (p := .help h (.cleanLoad d)) rfl hvar rfl
      (fun call c heq => by cases heq) ?_ ?_ ?_
    · intro call hposted
      rw [hp] at hposted
      exact .inl hposted
    · exact howner
    · intro h' stage' heq
      cases heq
      have hmatch := (decide_decides (s.descs h.desc) d verdict).2.2.match
      rw [tryComplete,goto_descs,set_desc_descs,update_self]
      refine ⟨?_,hval,?_⟩
      · rcases hheld with hm | hover
        · exact .inl (hm.trans hmatch.symm)
        · exact .inr hover
      · intro hm
        refine decide_decided _ verdict ?_ hm
        exact hs.live h.desc h.word ((hm.trans hmatch).2.symm.trans hval)
  | cleanLoad d =>
    simp only [tryComplete]
    obtain ⟨hheld,hval,hdecided⟩ := hhelper
    split
    next hm =>
      refine hs.proceed hp (fun d hd => by cases hd; exact .inr rfl)
        ⟨.inl ⟨rfl,rfl⟩,hm.2.symm.trans hval,hdecided hm,fun _ => rfl⟩
    next hother =>
      refine hs.done hp ?_
      intro call hafter
      simp only [Owner,hafter] at howner
      obtain ⟨-,hdesc,-,hmatch⟩ := howner
      rw [hdesc] at hother
      exact absurd (hmatch d rfl) hother
  | cleanCas => exact hs.cleanup hp

/-- Accesses that have nothing to do with the thread's own descriptor. -/
def Pc.Plain : Pc → Prop
  | .setVar _ _ | .setOld _ _ | .setNew _ _ | .install _ _ | .readStatus _ => False
  | .help h stage => (∀ call, h.after ≠ .check call) ∧ stage = .load
  | _ => True

theorem Pc.Plain.owner (h : p.Plain) (hq : Quiet words t D.var) : Owner words D t p := by
  cases p with
  | setVar call c | setOld call c | setNew call c | install call c | readStatus call => cases h
  | help =>
    simp only [Owner]
    split
    next call hafter => exact absurd hafter (h.1 call)
    next => exact hq
  | _ => exact hq

/-- Two descriptors are the same but for a decision, their epoch and their number. -/
def Core (D D' : Desc) : Prop :=
  D'.oldVal = D.oldVal ∧ D'.newVal = D.newVal ∧ Decides D.var D'.var

theorem core_refl (s : State) (u : Nat) : Core (s.descs u) (s.descs u) := ⟨rfl,rfl,.inl rfl⟩

theorem core_update (h : Core (s.descs t) D) (u : Nat) :
    Core (s.descs u) (update s.descs t D u) := by
  rw [update_apply]
  split
  next hu => rwa [hu]
  next => exact core_refl s u

theorem Inv.plain (hs : Inv s) (hw : s'.words = s.words)
    (hd : ∀ u, Core (s.descs u) (s'.descs u)) (hpc : s'.pc = update s.pc t p)
    (hquiet : Quiet s.words t (s.descs t).var) (hp : p.Plain) : Inv s' := by
  refine hs.move hw hd hpc ?_ (fun _ _ => .inr hquiet) (hp.owner hquiet) ?_
  · intro call c heq
    rw [heq] at hp
    cases hp
  · intro h stage heq
    rw [heq] at hp
    rw [hp.2]
    trivial

theorem System.begin_plain (sys : System) (k : Option Call) : (sys.begin k).Plain := by
  cases sys <;> trivial

theorem System.after_load_plain (sys : System) (k : Option Call) (e : Nat) :
    (sys.afterLoad k e).Plain := by
  cases sys <;> trivial

theorem System.after_reset_plain (sys : System) (k : Option Call) (e : Nat) :
    (sys.afterReset k e).Plain := by
  cases sys <;> trivial

theorem begun_plain (k : Option Call) : (begun k).Plain := by
  cases k <;> trivial

section
variable (hs : Inv s)
include hs

theorem start_inv (hp : s.pc t = .idle) (h : start sys s t r = some s') : Inv s' := by
  have hquiet : Quiet s.words t (s.descs t).var := by
    have := hs.owner t
    rwa [hp] at this
  cases r with
  | beginOp =>
    simp only [start] at h
    split at h <;> cases h
    exact hs.plain (t := t) rfl (core_refl s) rfl hquiet (sys.begin_plain _)
  | finish =>
    simp only [start] at h
    split at h <;> cases h
    exact ⟨hs.state,hs.installed,hs.live,hs.owner,hs.helper⟩
  | load | tryAbort =>
    cases h
    exact hs.plain (t := t) rfl (core_refl s) rfl hquiet trivial
  | casVerify =>
    simp only [start] at h
    split at h <;> cases h
    · exact hs.plain (t := t) rfl (core_refl s) rfl hquiet (sys.begin_plain _)
    · exact hs.plain (t := t) rfl (core_refl s) rfl hquiet trivial

theorem Inv.reset (hp : s.pc t = .resetVar k e) (hw : s'.words = s.words)
    (hd : s'.descs = update s.descs t { s.descs t with var := ⟨none,0⟩ })
    (hpc : s'.pc = update s.pc t (sys.afterReset k e)) : Inv s' := by
  have hquiet := hs.owner t
  rw [hp] at hquiet
  have hplain := sys.after_reset_plain k e
  refine hs.store (t := t) (p := sys.afterReset k e) hw ?_ hpc (by rw [hp]; rfl) ?_ ?_ ?_ ?_
  · intro u hu
    rw [hd,update_of_ne hu]
  · intro w hv
    rw [hd,update_self] at hv
    cases hv
  · rw [hd,update_self]
    apply hplain.owner
    intro w hv
    cases hv
  · rw [hd,update_self]
    refine keeps_store hquiet ?_ ?_
    · intro call c heq
      rw [heq] at hplain
      cases hplain
    · intro d w hval _ hm
      cases hval.symm.trans hm.2
  · intro h stage heq
    cases sys <;> cases heq

/-- Nothing that was loaded from a descriptor is mistaken for its next use. -/
theorem Inv.fresh_use (hp : s.pc t = .setVar call c)
    (hheld : Held s.words t (s.descs t).var (s.pc t) d) : ¬ d.Match ⟨some call.word,c + 1⟩ := by
  have howner := hs.owner t
  rw [hp] at howner
  obtain ⟨-,hloaded,hlater⟩ := howner
  have heven := hloaded.even
  intro hm
  have hcnt : d.cnt / 4 = (c + 1) / 4 := hm.1
  have hword : d.val = some call.word := hm.2
  have hlt : d.cnt / 4 < c / 4 := by
    rcases hheld with hm' | ⟨-,hnext⟩
    · rw [hm'.1]
      exact hlater (hm'.2.symm.trans hword)
    · exact hnext call c hp hword
  omega

theorem Inv.set_var (hp : s.pc t = .setVar call c) :
    Inv ((s.setDesc t { s.descs t with var := ⟨some call.word,c + 1⟩ }).goto t
      (.setOld call c)) := by
  have howner := hs.owner t
  rw [hp] at howner
  obtain ⟨hquiet,hloaded,-⟩ := howner
  have heven := hloaded.even
  refine hs.store (t := t) (p := .setOld call c) rfl ?_ rfl (by rw [hp]; rfl) ?_ ?_ ?_ ?_
  · intro u hu
    exact update_of_ne hu _ _
  · intro w _
    simp only [goto_descs,set_desc_descs,update_self]
    omega
  · simp only [goto_descs,set_desc_descs,update_self]
    exact ⟨hloaded,rfl,by simp only; omega⟩
  · simp only [goto_descs,set_desc_descs,update_self]
    exact keeps_store hquiet (by simp) fun d w _ hheld => hs.fresh_use hp hheld
  · intro h stage heq
    cases heq

theorem Inv.set_field (hidle : (s.pc t).posted = none)
    (hvar : D.var = (s.descs t).var) (owner : Owner s.words D t p)
    (arm : ∀ call c, p ≠ .setVar call c) (hhelp : ∀ h stage, p ≠ .help h stage) :
    Inv ((s.setDesc t D).goto t p) := by
  refine hs.store (t := t) (p := p) rfl (fun u hu => update_of_ne hu _ _) rfl hidle
    ?_ ?_ ?_ hhelp
  · simp only [goto_descs,set_desc_descs,update_self,hvar]
    exact hs.live t
  · simp only [goto_descs,set_desc_descs,update_self]
    exact owner
  · simp only [goto_descs,set_desc_descs,update_self,hvar]
    exact keeps_decides (turns_refl _) (.inl rfl) fun call c heq => absurd heq (arm call c)

theorem Inv.install (hp : s.pc t = .install call c) (hw : s.words call.word = ⟨call.expected,c⟩) :
    Inv ((s.setWord call.word ⟨t,c + 1⟩).goto t (.help ⟨t,call.word,.check call⟩ .load)) := by
  have howner := hs.owner t
  rw [hp] at howner
  obtain ⟨hsetup,hold,hnew⟩ := howner
  have heven := hsetup.even
  have hcnt := hsetup.cnt
  refine hs.write (t := t) (w := call.word) rfl rfl rfl ?_ ?_ (fun _ => rfl) ?_ ?_ ?_
    (by simp) ?_
  · rw [hw]
    exact .inr (.inl ⟨heven,rfl⟩)
  · intro u _ m hu
    rw [hw] at hu
    have := (LinVar.mk.inj hu).2
    omega
  · intro _
    exact ⟨call,rfl,rfl,by simp only; omega⟩
  · intro call' hposted
    rw [hp] at hposted
    cases hposted
  · refine ⟨⟨hsetup.val,hold,hnew,.inl ?_⟩,rfl,rfl,fun d hd => by cases hd⟩
    simp only [goto_words,set_word_words,update_self,LinVar.mk.injEq,true_and]
    omega
  · intro h stage heq
    cases heq
    trivial

theorem Inv.not_install (hp : s.pc t = .install call c)
    (hw : s.words call.word ≠ ⟨call.expected,c⟩) : Quiet s.words t (s.descs t).var := by
  have howner := hs.owner t
  rw [hp] at howner
  obtain ⟨hsetup,-⟩ := howner
  have heven := hsetup.even
  intro w hv
  cases hsetup.val.symm.trans hv
  have hne : (s.words call.word).cnt ≠ c := by
    intro heq
    apply hw
    cases hcase : s.words call.word with
    | mk =>
      have hval := hsetup.same heq
      rw [hcase] at heq hval
      rw [← heq,← hval]
  have hle := hsetup.le
  rw [hsetup.cnt]
  by_cases hone : (s.words call.word).cnt = 4 * (c / 4) + 1
  · refine .inr ⟨hone,?_⟩
    exact hs.not_installed (.inl (by rw [hp]; rfl)) _ (by omega)
  · exact .inl (by omega)

theorem access_inv (h : access sys s t = some s') : Inv s' := by
  unfold access at h
  have howner := hs.owner t
  split at h
  next => cases h
  next hp =>
    cases h
    rw [hp] at howner
    exact hs.plain (t := t) rfl (core_update ⟨rfl,rfl,.inl rfl⟩) rfl howner trivial
  next hp =>
    cases h
    exact hs.reset hp rfl rfl rfl
  next k hp =>
    cases h
    rw [hp] at howner
    exact hs.plain (t := t) rfl (core_refl s) rfl howner (sys.after_load_plain k _)
  next k e hp =>
    cases h
    rw [hp] at howner
    exact hs.plain (t := t) rfl (core_update ⟨rfl,rfl,.inl rfl⟩) rfl howner (begun_plain k)
  next hp =>
    rw [hp] at howner
    simp only at h
    split at h <;> cases h
    · exact hs.plain (t := t) rfl (core_refl s) rfl howner ⟨by simp,rfl⟩
    · exact hs.plain (t := t) rfl (core_refl s) rfl howner trivial
  next call hp =>
    rw [hp] at howner
    simp only at h
    split at h
    next =>
      cases h
      exact hs.plain (t := t) rfl (core_refl s) rfl howner ⟨by simp,rfl⟩
    next hfree =>
      split at h <;> cases h
      next => exact hs.plain (t := t) rfl (core_refl s) rfl howner trivial
      next hsame =>
        have hval : (s.words call.word).val = call.expected := by simpa using hsame
        have heven : (s.words call.word).cnt % 4 = 0 := by
          have := hs.state call.word
          simp only [LinVar.inProgress,decide_eq_true_eq] at hfree
          omega
        refine hs.move (t := t) rfl (core_refl s) rfl ?_ (fun _ _ => .inr howner) ?_
          (by simp)
        · intro call' c heq
          cases heq
          exact ⟨rfl,heven⟩
        · refine ⟨howner,⟨heven,Nat.le_refl _,fun _ => hval⟩,?_⟩
          intro hword
          have hdead := howner _ hword
          unfold Dead at hdead
          omega
  next hp =>
    cases h
    exact hs.set_var hp
  next hp =>
    cases h
    rw [hp] at howner
    exact hs.set_field (by rw [hp]; rfl) rfl ⟨howner,rfl⟩ (by simp) (by simp)
  next hp =>
    cases h
    rw [hp] at howner
    exact hs.set_field (by rw [hp]; rfl) rfl ⟨howner.1,howner.2,rfl⟩ (by simp)
      (by simp)
  next hp =>
    split at h <;> cases h
    next hw => exact hs.install hp hw
    next hw =>
      exact hs.plain (t := t) rfl (core_refl s) rfl (hs.not_install hp hw) trivial
  next hp =>
    cases h
    rw [hp] at howner
    exact hs.plain (t := t) rfl (core_refl s) rfl howner.2.1 trivial
  next hp =>
    cases h
    rw [hp] at howner
    exact hs.plain (t := t) rfl (core_refl s) rfl howner trivial
  next hp =>
    cases h
    exact hs.try_complete hp
  next hp =>
    cases h
    rw [hp] at howner
    exact hs.plain (t := t) rfl (core_refl s) rfl howner trivial
  next hp =>
    rw [hp] at howner
    split at h <;> cases h <;> exact hs.plain (t := t) rfl (core_refl s) rfl howner trivial
  next d hp =>
    cases h
    rw [hp] at howner
    exact hs.plain (t := t) rfl (core_update (abort_decides _ d)) rfl howner trivial

theorem step_inv (h : step sys s a = some s') : Inv s' := by
  cases a with
  | start =>
    simp only [step] at h
    split at h
    next hp => exact start_inv hs hp h
    next => cases h
  | access => exact access_inv hs h
  | retry t =>
    simp only [step] at h
    split at h
    next hp =>
      cases h
      have howner := hs.owner t
      rw [hp] at howner
      exact hs.plain (t := t) rfl (core_refl s) rfl howner trivial
    next => cases h
  | advance =>
    cases h
    exact ⟨hs.state,hs.installed,hs.live,hs.owner,hs.helper⟩

end

end Montage.Dcss
