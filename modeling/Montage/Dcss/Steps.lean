import Montage.Dcss.Invariant

namespace Montage.Dcss
open Library Function

variable {s s' : State} {p : Pc} {t : Nat} {sys : System} {h : Help} {stage : Stage}

def Pc.taken (var : LinVar (Option Nat)) : Pc → Bool
  | .help h _ => h.after.own.isSome && var.committed
  | .readStatus _ => var.committed
  | .giveBack _ b => b
  | _ => false

def taken (s : State) (t : Nat) : Bool := (s.pc t).taken (s.descs t).var

def Pc.late : Pc → Bool
  | .help h _ => h.after.own.isSome
  | .readStatus _ | .giveBack _ _ => true
  | _ => false

def Pc.begun (sys : System) : Pc → Bool
  | .loadEpoch _ =>
    match sys with
    | .blocking => true
    | .nonblocking => false
  | .setUpEpoch _ _ | .casLoad _ | .setVar _ _ | .setOld _ _ | .setNew _ _ | .install _ _
  | .readStatus _ | .giveBack _ _ => true
  | .help h _ => h.after.call.isSome
  | _ => false

/-- Whether `old_val`, or `new_val` if `new` is set, belongs to the use `var` was stored
for: `set_up_var` writes them after `var`, in this order. -/
def Pc.written (new : Bool) : Pc → Bool
  | .setOld _ _ => false
  | .setNew _ _ => !new
  | _ => true

/-- The value `cleanup` reads for state `d`. -/
def Desc.field (D : Desc) (d : LinVar (Option Nat)) : Nat :=
  if d.committed then D.newVal else D.oldVal

/-- Thread `t` moves on to `p` and leaves words and descriptors alone, apart from the
descriptors' epochs and numbers. -/
structure Local (s s' : State) (t : Nat) (p : Pc) : Prop where
  words : s'.words = s.words
  same : ∀ u, (s'.descs u).oldVal = (s.descs u).oldVal ∧
    (s'.descs u).newVal = (s.descs u).newVal ∧ (s'.descs u).var = (s.descs u).var
  pc : s'.pc = update s.pc t p

/-- A thread goes from `p` to `p'` without a change in its call: `var` is the state of its
descriptor. -/
structure Leads (sys : System) (var : LinVar (Option Nat)) (p p' : Pc) : Prop where
  call : p'.call = p.call
  taken : p'.taken var = p.taken var
  late : p.late = true → p'.late = true
  begun : p'.begun sys = true → p.begun sys = true
  written : ∀ b, p'.written b = true

structure Unseen (s s' : State) : Prop where
  calls : s'.calls = s.calls
  result : s'.result = s.result

def Act.tid : Act → Nat
  | .start t _ | .access t | .retry t => t
  | .advance => 0

inductive Kind (sys : System) (s : State) (a : Act) (t : Nat) (s' : State) : Prop
  | skip (words : s'.words = s.words) (descs : s'.descs = s.descs) (pc : s'.pc = s.pc)
      (unseen : Unseen s s')
  | move (p : Pc) (here : Local s s' t p) (unseen : Unseen s s')
      (leads : Leads sys (s.descs t).var (s.pc t) p)
      (read : ∀ h d v, p = .help h (.cleanCas d v) → a = .access t ∧
        s.pc t = .help h (.cleanRead d) ∧ v = (s.descs h.desc).field d)
  | invoke (call : Call) (p : Pc) (here : Local s s' t p) (idle : s.pc t = .idle)
      (plain : p.Plain) (running : p.call = some call) (late : p.late = false)
      (begun : p.begun sys = true → s.epochs t ≠ nullEpoch)
      (request : ∃ w expected desired, a = .start t (.casVerify w expected desired))
      (calls : s'.calls = update s.calls t (s.calls t + 1))
      (result : s'.result = s.result)
  | giveBack (call : Call) (b : Bool) (here : Local s s' t .idle)
      (pc : s.pc t = .giveBack call b) (calls : s'.calls = s.calls)
      (result : s'.result = update s.result t (some b))
  | decide (D : Nat) (d : LinVar (Option Nat)) (verdict : Bool) (p : Pc)
      (words : s'.words = s.words)
      (descs : s'.descs = update s.descs D ((s.descs D).decide d verdict))
      (pc : s'.pc = update s.pc t p) (unseen : Unseen s s')
      (leads : ∀ var, Leads sys var (s.pc t) p) (read : ∀ h d v, p ≠ .help h (.cleanCas d v))
      (commit : verdict = true → ∃ h, a = .access t ∧ s.pc t = .help h (.decide d true) ∧
        h.desc = D)
  | resetVar (k : Option Call) (e : Nat) (p : Pc) (words : s'.words = s.words)
      (descs : s'.descs = update s.descs t { s.descs t with var := ⟨none,0⟩ })
      (pc : s'.pc = update s.pc t p) (old : s.pc t = .resetVar k e)
      (plain : p.Plain) (late : p.late = false) (call : p.call = k)
      (calls : s'.calls = s.calls) (result : s'.result = update s.result t none)
  | setVar (call : Call) (c : Nat) (words : s'.words = s.words)
      (descs : s'.descs =
        update s.descs t { s.descs t with var := ⟨some call.word,c + 1⟩ })
      (pc : s'.pc = update s.pc t (.setOld call c)) (old : s.pc t = .setVar call c)
      (unseen : Unseen s s')
  | setOld (call : Call) (c : Nat) (words : s'.words = s.words)
      (descs : s'.descs = update s.descs t { s.descs t with oldVal := call.expected })
      (pc : s'.pc = update s.pc t (.setNew call c)) (old : s.pc t = .setOld call c)
      (unseen : Unseen s s')
  | setNew (call : Call) (c : Nat) (words : s'.words = s.words)
      (descs : s'.descs = update s.descs t { s.descs t with newVal := call.desired })
      (pc : s'.pc = update s.pc t (.install call c)) (old : s.pc t = .setNew call c)
      (unseen : Unseen s s')
  | install (call : Call) (c : Nat) (found : s.words call.word = ⟨call.expected,c⟩)
      (words : s'.words = update s.words call.word ⟨t,c + 1⟩)
      (descs : s'.descs = s.descs)
      (pc : s'.pc = update s.pc t (.help ⟨t,call.word,.check call⟩ .load))
      (old : s.pc t = .install call c) (unseen : Unseen s s')
  | clean (h : Help) (d : LinVar (Option Nat)) (v : Nat) (val : d.val = some h.word)
      (found : s.words h.word = ⟨h.desc,d.undecided.cnt⟩)
      (words : s'.words = update s.words h.word
        ⟨v,if d.committed then d.cnt + 2 else d.cnt + 1⟩)
      (descs : s'.descs = s.descs) (pc : s'.pc = update s.pc t h.done)
      (old : s.pc t = .help h (.cleanCas d v)) (unseen : Unseen s s')

theorem local_goto (s : State) (t : Nat) (p : Pc) : Local s (s.goto t p) t p :=
  ⟨rfl,fun _ => ⟨rfl,rfl,rfl⟩,rfl⟩

theorem unseen_goto (s : State) (t : Nat) (p : Pc) : Unseen s (s.goto t p) := ⟨rfl,rfl⟩

theorem local_update {D : Desc} (hw : s'.words = s.words)
    (hd : s'.descs = update s.descs t D) (hpc : s'.pc = update s.pc t p)
    (hsame : D.oldVal = (s.descs t).oldVal ∧ D.newVal = (s.descs t).newVal ∧
      D.var = (s.descs t).var) : Local s s' t p := by
  refine ⟨hw,?_,hpc⟩
  intro u
  rw [hd,update_apply]
  split
  next hu => rwa [hu]
  next => exact ⟨rfl,rfl,rfl⟩

theorem Pc.taken_of_not_late (h : p.late = false) (var : LinVar (Option Nat)) :
    p.taken var = false := by
  cases p with
  | help =>
    simp only [Pc.late] at h
    simp [Pc.taken,h]
  | readStatus call | giveBack call b => cases h
  | _ => rfl

theorem leads_plain {p' : Pc} {var : LinVar (Option Nat)} (hcall : p'.call = p.call)
    (hp : p.late = false) (htaken : p'.taken var = false)
    (hbegun : p'.begun sys = false ∨ p.begun sys = true) (hw : ∀ b, p'.written b = true) :
    Leads sys var p p' := by
  refine ⟨hcall,?_,?_,?_,hw⟩
  · rw [htaken,Pc.taken_of_not_late hp]
  · intro hlate
    rw [hp] at hlate
    cases hlate
  · intro hb
    rcases hbegun with h | h
    · rw [h] at hb
      cases hb
    · exact h

theorem leads_done (sys : System) (h : Help) (stage : Stage) (var : LinVar (Option Nat)) :
    Leads sys var (.help h stage) h.done := by
  obtain ⟨desc,word,after⟩ := h
  cases after with
  | load => exact leads_plain rfl rfl rfl (.inl rfl) fun _ => rfl
  | refuse => exact leads_plain rfl rfl rfl (.inr rfl) fun _ => rfl
  | check => exact ⟨rfl,rfl,fun _ => rfl,fun _ => rfl,fun _ => rfl⟩

theorem Pc.begun_of_late (h : p.late = true) : p.begun sys = true := by
  cases p with
  | help =>
    obtain ⟨call,hcall⟩ := Option.isSome_iff_exists.mp h
    simp [Pc.begun,After.own_eq hcall,After.call]
  | readStatus call | giveBack call b => rfl
  | _ => cases h

theorem start_kind (hp : s.pc t = .idle) (h : start sys s t r = some s') :
    Kind sys s (.start t r) t s' := by
  cases r with
  | beginOp =>
    simp only [start] at h
    split at h <;> cases h
    cases sys <;> exact .move _ (local_goto s t _) (unseen_goto s t _)
      (by rw [hp]; exact leads_plain rfl rfl rfl (.inl rfl) fun _ => rfl) (by simp [System.begin])
  | finish =>
    simp only [start] at h
    split at h <;> cases h
    exact .skip rfl rfl rfl ⟨rfl,rfl⟩
  | load | tryAbort =>
    cases h
    exact .move _ (local_goto s t _) (unseen_goto s t _)
      (by rw [hp]; exact leads_plain rfl rfl rfl (.inl rfl) fun _ => rfl) (by simp)
  | casVerify w expected desired =>
    simp only [start] at h
    split at h <;> cases h
    · cases sys <;> exact .invoke _ _ ⟨rfl,fun _ => ⟨rfl,rfl,rfl⟩,rfl⟩ hp trivial rfl rfl
        (by simp [Pc.begun,System.begin]) ⟨w,expected,desired,rfl⟩ rfl rfl
    next hin =>
      exact .invoke _ _ ⟨rfl,fun _ => ⟨rfl,rfl,rfl⟩,rfl⟩ hp trivial rfl rfl (fun _ => hin)
        ⟨w,expected,desired,rfl⟩ rfl rfl

theorem try_complete_kind (hp : s.pc t = .help h stage)
    (hval : ∀ d v, stage = .cleanCas d v → d.val = some h.word) :
    Kind sys s (.access t) t (tryComplete s t h stage) := by
  have hgo : ∀ stage', (∀ d v, stage' = .cleanCas d v → stage = .cleanRead d ∧
      v = (s.descs h.desc).field d) → Kind sys s (.access t) t (s.goto t (.help h stage')) := by
    intro stage' hread
    refine .move _ (local_goto s t _) (unseen_goto s t _)
      (by rw [hp]; exact ⟨rfl,rfl,id,id,fun _ => rfl⟩) ?_
    intro h' d v heq
    cases heq
    obtain ⟨rfl,hv⟩ := hread d v rfl
    exact ⟨rfl,hp,hv⟩
  have hdone : Kind sys s (.access t) t (s.goto t h.done) := by
    refine .move _ (local_goto s t _) (unseen_goto s t _)
      (by rw [hp]; exact leads_done sys h stage _) ?_
    intro h' d v heq
    exact absurd heq (h.done_not_help h' _)
  cases stage with
  | load =>
    simp only [tryComplete]
    split
    · exact hdone
    · split <;> exact hgo _ (by simp)
  | epoch | check => exact hgo _ (by simp)
  | decide d verdict =>
    refine .decide h.desc d verdict _ rfl rfl rfl ⟨rfl,rfl⟩
      (fun var => by rw [hp]; exact ⟨rfl,rfl,id,id,fun _ => rfl⟩) (by simp) ?_
    intro hv
    exact ⟨h,rfl,by rw [hp,hv],rfl⟩
  | cleanLoad =>
    simp only [tryComplete]
    split
    · exact hgo _ (by simp)
    · exact hdone
  | cleanRead =>
    refine hgo _ ?_
    intro d' v heq
    cases heq
    exact ⟨rfl,rfl⟩
  | cleanCas d v =>
    simp only [tryComplete]
    by_cases hw : s.words h.word = ⟨h.desc,d.undecided.cnt⟩
    · rw [cleanup_cas_hit (hval d v rfl) hw]
      exact .clean h d v (hval d v rfl) hw rfl rfl rfl hp ⟨rfl,rfl⟩
    · rw [cleanup_cas_miss (hval d v rfl) hw]
      exact hdone

theorem access_kind (hs : Inv s) (h : access sys s t = some s') :
    Kind sys s (.access t) t s' := by
  have hgo : ∀ p, Leads sys (s.descs t).var (s.pc t) p →
      (∀ h d v, p ≠ .help h (.cleanCas d v)) → Kind sys s (.access t) t (s.goto t p) := by
    intro p hleads hcas
    exact .move p (local_goto s t p) (unseen_goto s t p) hleads
      fun h d v heq => absurd heq (hcas h d v)
  unfold access at h
  split at h
  next => cases h
  next k e hp =>
    cases h
    exact .move (.resetVar k e) (local_update rfl rfl rfl ⟨rfl,rfl,rfl⟩) ⟨rfl,rfl⟩
      (by rw [hp]; exact leads_plain rfl rfl rfl (.inl rfl) fun _ => rfl) (by simp)
  next k e hp =>
    cases h
    cases sys <;> exact .resetVar k e _ rfl rfl rfl hp trivial rfl rfl rfl rfl
  next hp =>
    cases h
    cases sys with
    | blocking =>
      exact hgo _ (by rw [hp]; exact leads_plain rfl rfl rfl (.inr rfl) fun _ => rfl)
        (by simp [System.afterLoad])
    | nonblocking =>
      exact hgo _ (by rw [hp]; exact leads_plain rfl rfl rfl (.inl rfl) fun _ => rfl)
        (by simp [System.afterLoad])
  next k e hp =>
    cases h
    refine .move (begun k) (local_update rfl rfl rfl ⟨rfl,rfl,rfl⟩) ⟨rfl,rfl⟩ ?_ ?_
    · rw [hp]
      cases k <;> exact leads_plain rfl rfl rfl (.inr rfl) fun _ => rfl
    · cases k <;> simp [begun]
  next hp =>
    simp only at h
    split at h <;> cases h
    · exact hgo _ (by rw [hp]; exact leads_plain rfl rfl rfl (.inl rfl) fun _ => rfl) (by simp)
    · exact .move .idle ⟨rfl,fun _ => ⟨rfl,rfl,rfl⟩,rfl⟩ ⟨rfl,rfl⟩
        (by rw [hp]; exact leads_plain rfl rfl rfl (.inl rfl) fun _ => rfl) (by simp)
  next hp =>
    simp only at h
    split at h
    · cases h
      exact hgo _ (by rw [hp]; exact leads_plain rfl rfl rfl (.inr rfl) fun _ => rfl) (by simp)
    · split at h <;> cases h <;>
        exact hgo _ (by rw [hp]; exact leads_plain rfl rfl rfl (.inr rfl) fun _ => rfl) (by simp)
  next call c hp =>
    cases h
    exact .setVar call c rfl rfl rfl hp ⟨rfl,rfl⟩
  next call c hp =>
    cases h
    exact .setOld call c rfl rfl rfl hp ⟨rfl,rfl⟩
  next call c hp =>
    cases h
    exact .setNew call c rfl rfl rfl hp ⟨rfl,rfl⟩
  next call c hp =>
    split at h <;> cases h
    next hw => exact .install call c hw rfl rfl rfl hp ⟨rfl,rfl⟩
    next => exact hgo _ (by rw [hp]; exact leads_plain rfl rfl rfl (.inr rfl) fun _ => rfl) (by simp)
  next hp =>
    cases h
    exact hgo _ (by rw [hp]; exact ⟨rfl,rfl,fun _ => rfl,fun _ => rfl,fun _ => rfl⟩) (by simp)
  next call b hp =>
    cases h
    exact .giveBack call b ⟨rfl,fun _ => ⟨rfl,rfl,rfl⟩,rfl⟩ hp rfl rfl
  next help stage hp =>
    cases h
    refine try_complete_kind hp ?_
    intro d v heq
    rw [heq] at hp
    exact (hs.helper t help _ hp).2.1
  next hp =>
    cases h
    exact hgo _ (by rw [hp]; exact leads_plain rfl rfl rfl (.inl rfl) fun _ => rfl) (by simp)
  next hp =>
    split at h <;> cases h <;>
      exact hgo _ (by rw [hp]; exact leads_plain rfl rfl rfl (.inl rfl) fun _ => rfl) (by simp)
  next D d hp =>
    cases h
    exact .decide D d false _ rfl rfl rfl ⟨rfl,rfl⟩
      (fun _ => by rw [hp]; exact leads_plain rfl rfl rfl (.inl rfl) fun _ => rfl) (by simp) (by simp)

theorem step_kind (hs : Inv s) (h : step sys s a = some s') : Kind sys s a a.tid s' := by
  cases a with
  | start =>
    simp only [step] at h
    split at h
    next hp => exact start_kind hp h
    next => cases h
  | access => exact access_kind hs h
  | retry t =>
    simp only [step] at h
    split at h
    next k e hp =>
      cases h
      refine .move _ (local_goto s t _) (unseen_goto s t _) ?_ (by simp)
      have hp : s.pc (Act.retry t).tid = .setUpEpoch k e := hp
      rw [hp]
      exact leads_plain rfl rfl rfl (.inr rfl) fun _ => rfl
    next => cases h
  | advance =>
    cases h
    exact .skip rfl rfl rfl ⟨rfl,rfl⟩

end Montage.Dcss
