import Montage.Dcss.Steps

namespace Montage.Dcss
open Library Function List

variable {s s' : State} {p : Pc} {t : Nat} {sys : System} {a : Act}
  {d : LinVar (Option Nat)} {h : Help} {call : Call}

/-- No `cleanup` reads a field of a descriptor between the store to `var` that it has seen
and the write of that field. -/
def undisturbed (s : State) : Act → Bool
  | .access t =>
    match s.pc t with
    | .help h (.cleanRead d) =>
      !decide (d.Match (s.descs h.desc).var) || (s.pc h.desc).written d.committed
    | _ => true
  | _ => true

def Right (s : State) : Prop :=
  ∀ t h d v, s.pc t = .help h (.cleanCas d v) → d.Match (s.descs h.desc).var →
    (s.pc h.desc).written d.committed = true ∧ v = (s.descs h.desc).field d

theorem Pc.Plain.written (h : p.Plain) (b : Bool) : p.written b = true := by
  cases p with
  | setOld call c | setNew call c => cases h
  | _ => rfl

theorem Desc.field_eq {D D' : Desc} (ho : D'.oldVal = D.oldVal) (hn : D'.newVal = D.newVal) :
    D'.field d = D.field d := by
  simp only [Desc.field,ho,hn]

theorem right_local (hr : Right s) (here : Local s s' t p) (hw : ∀ b, p.written b = true)
    (hcas : ∀ h d v, p = .help h (.cleanCas d v) → d.Match (s.descs h.desc).var →
      (s.pc h.desc).written d.committed = true ∧ v = (s.descs h.desc).field d) : Right s' := by
  intro u h d v hu hm
  obtain ⟨hold,hnew,hvar⟩ := here.same h.desc
  rw [hvar] at hm
  have hright : (s.pc h.desc).written d.committed = true ∧ v = (s.descs h.desc).field d := by
    rw [here.pc,update_apply] at hu
    split at hu
    · exact hcas h d v hu hm
    · exact hr u h d v hu hm
  rw [Desc.field_eq hold hnew]
  refine ⟨?_,hright.2⟩
  rw [here.pc,update_apply]
  split
  · exact hw _
  · exact hright.1

theorem right_write (hr : Right s) (hpc : s'.pc = update s.pc t p)
    (hw : ∀ b, p.written b = true) (hcas : ∀ h d v, p ≠ .help h (.cleanCas d v))
    (hsame : ∀ u h d v, s.pc u = .help h (.cleanCas d v) → d.Match (s'.descs h.desc).var →
      d.Match (s.descs h.desc).var ∧
        ((s.pc h.desc).written d.committed = true →
          (s'.descs h.desc).field d = (s.descs h.desc).field d)) : Right s' := by
  intro u h d v hu hm
  rw [hpc,update_apply] at hu
  split at hu
  · exact absurd hu (hcas h d v)
  · obtain ⟨hm',hfield⟩ := hsame u h d v hu hm
    obtain ⟨hwritten,hv⟩ := hr u h d v hu hm'
    rw [hfield hwritten]
    refine ⟨?_,hv⟩
    rw [hpc,update_apply]
    split
    · exact hw _
    · exact hwritten

theorem right_setup (hr : Right s) (hpc : s'.pc = update s.pc t p)
    (hd : ∀ u ≠ t, s'.descs u = s.descs u) (hcas : ∀ h d v, p ≠ .help h (.cleanCas d v))
    (hsame : ∀ u h d v, s.pc u = .help h (.cleanCas d v) → h.desc = t →
      d.Match (s'.descs t).var → p.written d.committed = true ∧ v = (s'.descs t).field d) :
    Right s' := by
  intro u h d v hu hm
  rw [hpc,update_apply] at hu
  split at hu
  · exact absurd hu (hcas h d v)
  · by_cases hdesc : h.desc = t
    · rw [hdesc] at hm ⊢
      rw [hpc,update_self]
      exact hsame u h d v hu hdesc hm
    · rw [hd _ hdesc] at hm ⊢
      rw [hpc,update_of_ne hdesc]
      exact hr u h d v hu hm

theorem right_kind (hs : Inv s) (hr : Right s) (hok : undisturbed s a = true)
    (k : Kind sys s a t s') : Right s' := by
  cases k with
  | skip _ descs pc =>
    intro u h d v hu hm
    rw [descs] at hm ⊢
    rw [pc] at hu ⊢
    exact hr u h d v hu hm
  | move _ here _ leads read =>
    refine right_local hr here leads.written ?_
    intro h d v hp hm
    obtain ⟨rfl,hpc,hv⟩ := read h d v hp
    simp only [undisturbed,hpc,hm,decide_true,Bool.not_true,Bool.false_or] at hok
    exact ⟨hok,hv⟩
  | invoke _ _ here _ plain =>
    refine right_local hr here plain.written ?_
    intro h d v hp
    rw [hp] at plain
    cases plain.2
  | giveBack _ _ here => exact right_local hr here (fun _ => rfl) (by simp)
  | decide D d verdict _ _ descs pc _ leads read =>
    refine right_write hr pc (leads (s.descs t).var).written read ?_
    intro u h e v _ hm
    obtain ⟨hold,hnew,hvar⟩ := decide_decides (s.descs D) d verdict
    rw [descs,update_apply] at hm ⊢
    split at hm
    next hD =>
      rw [hD,if_pos rfl]
      exact ⟨hm.trans hvar.match,fun _ => Desc.field_eq hold hnew⟩
    next hD => rw [if_neg hD]; exact ⟨hm,fun _ => rfl⟩
  | resetVar _ _ _ _ descs pc _ plain =>
    refine right_setup hr pc (fun u hu => by rw [descs,update_of_ne hu]) ?_ ?_
    · intro h d v heq
      rw [heq] at plain
      cases plain.2
    · intro u h d v hu _ hm
      have hval := (hs.helper u h _ hu).2.1
      rw [descs,update_self] at hm
      cases hval.symm.trans hm.2
  | setVar _ _ _ descs pc old =>
    refine right_setup hr pc (fun u hu => by rw [descs,update_of_ne hu]) (by simp) ?_
    intro u h d v hu hdesc hm
    have hheld := (hs.helper u h _ hu).1
    rw [hdesc] at hheld
    rw [descs,update_self] at hm
    exact absurd hm (hs.fresh_use old hheld)
  | setOld _ _ _ descs pc old =>
    refine right_setup hr pc (fun u hu => by rw [descs,update_of_ne hu]) (by simp) ?_
    intro u h d v hu hdesc hm
    rw [descs,update_self] at hm
    have hwritten := (hr u h d v hu (by rw [hdesc]; exact hm)).1
    rw [hdesc,old] at hwritten
    cases hwritten
  | setNew _ _ _ descs pc old =>
    refine right_setup hr pc (fun u hu => by rw [descs,update_of_ne hu]) (by simp) ?_
    intro u h d v hu hdesc hm
    rw [descs,update_self] at hm ⊢
    obtain ⟨hwritten,hv⟩ := hr u h d v hu (by rw [hdesc]; exact hm)
    rw [hdesc,old] at hwritten
    have hopen : d.committed = false := by simpa [Pc.written] using hwritten
    rw [hdesc] at hv
    simp only [Desc.field,hopen] at hv ⊢
    exact ⟨rfl,hv⟩
  | install _ _ _ _ descs pc =>
    refine right_write hr pc (fun _ => rfl) (by simp) ?_
    intro u h d v _ hm
    rw [descs] at hm ⊢
    exact ⟨hm,fun _ => rfl⟩
  | clean h d v _ _ _ descs pc =>
    have hleads := leads_done sys h (.cleanCas d v) ⟨none,0⟩
    refine right_write hr pc hleads.written (fun h' d v => h.done_not_help h' _) ?_
    intro u h d v _ hm
    rw [descs] at hm ⊢
    exact ⟨hm,fun _ => rfl⟩

/-- The call of thread `t` takes effect: the logical value of its word goes from the
expected to the desired one, and nothing else changes. -/
structure Effect (s s' : State) (t : Nat) (call : Call) : Prop where
  running : (s.pc t).call = some call
  before : logical s call.word = call.expected
  after : logical s' call.word = call.desired
  others : ∀ w ≠ call.word, logical s' w = logical s w
  untaken : taken s t = false
  taken : taken s' t = true
  calls : s'.calls t = s.calls t

theorem logical_eq (hw : s'.words w = s.words w)
    (hd : (s.words w).cnt % 4 = 1 → (s'.descs (s.words w).val).oldVal =
        (s.descs (s.words w).val).oldVal ∧
      (s'.descs (s.words w).val).newVal = (s.descs (s.words w).val).newVal ∧
      (s'.descs (s.words w).val).var.committed = (s.descs (s.words w).val).var.committed) :
    logical s' w = logical s w := by
  by_cases hone : (s.words w).cnt % 4 = 1
  · obtain ⟨hold,hnew,hc⟩ := hd hone
    simp only [logical,hw,hold,hnew,hc]
  · simp [logical,hw,LinVar.inProgress,hone]

theorem logical_own (hs : Inv s) (hidle : (s.pc t).posted = none) (hw : s'.words = s.words)
    (hd : ∀ u ≠ t, s'.descs u = s.descs u) (w : Nat) : logical s' w = logical s w := by
  refine logical_eq (by rw [hw]) ?_
  intro hone
  rw [hd _ (hs.not_installed (.inl hidle) w hone)]
  exact ⟨rfl,rfl,rfl⟩

theorem committed_iff {d : LinVar α} : d.committed = true ↔ d.cnt % 4 = 2 := by
  simp [LinVar.committed]

theorem Pc.posted_taken {p : Pc} (h : p.posted = some call) (var : LinVar (Option Nat)) :
    p.taken var = var.committed ∧ p.call = some call ∧ p.late = true := by
  cases p with
  | help =>
    have hafter := After.own_eq h
    simp [Pc.taken,Pc.call,Pc.late,hafter,After.own,After.call]
  | _ => cases h

theorem decide_effect (hs : Inv s) (words : s'.words = s.words)
    (descs : s'.descs = update s.descs D ((s.descs D).decide d verdict))
    (pc : s'.pc = update s.pc t p) (unseen : Unseen s s')
    (htaken : ∀ var, p.taken var = (s.pc t).taken var) :
    (∀ w, logical s' w = logical s w) ∨ ∃ u call, Effect s s' u call := by
  obtain ⟨hold,hnew,hvar⟩ := decide_decides (s.descs D) d verdict
  have hother : ∀ w, ((s.words w).cnt % 4 = 1 → (s.words w).val ≠ D) →
      logical s' w = logical s w := by
    intro w hne
    refine logical_eq (by rw [words]) ?_
    intro hone
    rw [descs,update_of_ne (hne hone)]
    exact ⟨rfl,rfl,rfl⟩
  by_cases hsame : ((s.descs D).decide d verdict).var.committed = (s.descs D).var.committed
  · refine .inl ?_
    intro w
    refine logical_eq (by rw [words]) ?_
    intro _
    rw [descs,update_apply]
    split
    next hD => rw [hD]; exact ⟨hold,hnew,hsame⟩
    next => exact ⟨rfl,rfl,rfl⟩
  · -- the state goes from in progress to committed
    obtain ⟨hopen,hc⟩ : (s.descs D).var.committed = false ∧
        ((s.descs D).decide d verdict).var.committed = true := by
      rcases hvar with heq | ⟨hone,-⟩
      · exact absurd (by rw [heq]) hsame
      · have hopen : (s.descs D).var.committed = false := by
          simp only [LinVar.committed,decide_eq_false_iff_not]
          omega
        refine ⟨hopen,?_⟩
        simpa [hopen] using hsame
    by_cases hinst : ∃ w, (s.words w).cnt % 4 = 1 ∧ (s.words w).val = D
    · obtain ⟨w,hone,hval⟩ := hinst
      obtain ⟨call,hposted,rfl,-⟩ := hs.installed w hone
      rw [hval] at hposted
      have hmine := (hs.owner D).posted hposted
      refine .inr ⟨D,call,(Pc.posted_taken hposted (s.descs D).var).2.1,?_,?_,?_,?_,?_,?_⟩
      · simp [logical,LinVar.inProgress,hone,hval,hopen,hmine.old]
      · simp [logical,words,LinVar.inProgress,hone,hval,descs,hc,hnew,hmine.new]
      · intro w' hne
        apply hother
        intro hone' hval'
        obtain ⟨call',hposted',hword',-⟩ := hs.installed w' hone'
        rw [hval',hposted] at hposted'
        cases hposted'
        exact hne hword'.symm
      · rw [taken,(Pc.posted_taken hposted _).1,hopen]
      · have hp : (s'.pc D).taken (s'.descs D).var = (s.pc D).taken (s'.descs D).var := by
          rw [pc,update_apply]
          split
          next hD => rw [hD,htaken]
          next => rfl
        rw [taken,hp,(Pc.posted_taken hposted _).1,descs,update_self,hc]
      · rw [unseen.calls]
    · refine .inl ?_
      intro w
      exact hother w fun hone hval => hinst ⟨w,hone,hval⟩

theorem install_effect (hs : Inv s) (found : s.words call.word = ⟨call.expected,c⟩)
    (words : s'.words = update s.words call.word ⟨t,c + 1⟩) (descs : s'.descs = s.descs)
    (pc : s'.pc = update s.pc t (.help ⟨t,call.word,.check call⟩ .load))
    (old : s.pc t = .install call c) (unseen : Unseen s s') :
    (∀ w, logical s' w = logical s w) ∨ ∃ u call, Effect s s' u call := by
  have howner := hs.owner t
  rw [old] at howner
  obtain ⟨hsetup,hold,hnew⟩ := howner
  have heven := hsetup.even
  have hbefore : logical s call.word = call.expected := by
    simp only [logical,found,LinVar.inProgress]
    rw [if_neg (by simp; omega)]
  have hothers : ∀ w ≠ call.word, logical s' w = logical s w := by
    intro w hne
    refine logical_eq (by rw [words,update_of_ne hne]) ?_
    intro _
    rw [descs]
    exact ⟨rfl,rfl,rfl⟩
  have hafter : logical s' call.word =
      if (s.descs t).var.committed then call.desired else call.expected := by
    simp only [logical,words,update_self,LinVar.inProgress,descs,hold,hnew]
    rw [if_pos (by simp; omega)]
  cases hc : (s.descs t).var.committed with
  | false =>
    refine .inl ?_
    intro w
    by_cases hw : w = call.word
    · rw [hw,hafter,hbefore,hc]
      rfl
    · exact hothers w hw
  | true =>
    refine .inr ⟨t,call,by rw [old]; rfl,hbefore,by rw [hafter,hc]; rfl,hothers,?_,?_,?_⟩
    · rw [taken,old]
      rfl
    · rw [taken,pc,update_self,descs]
      exact hc
    · rw [unseen.calls]

theorem clean_silent (hs : Inv s) (hr : Right s)
    (found : s.words h.word = ⟨h.desc,d.undecided.cnt⟩)
    (words : s'.words = update s.words h.word
      ⟨v,if d.committed then d.cnt + 2 else d.cnt + 1⟩)
    (descs : s'.descs = s.descs) (old : s.pc t = .help h (.cleanCas d v)) (w : Nat) :
    logical s' w = logical s w := by
  have hhelper := hs.helper t h _ old
  have hcur := Helper.current hhelper found
  have hcnt := cleanup_cnt hhelper.2.2.1
  by_cases hw : w = h.word
  · subst hw
    have hv := (hr t h d v old (by rw [hcur]; exact ⟨rfl,rfl⟩)).2
    have hone : d.undecided.cnt % 4 = 1 := by simp only [LinVar.undecided]; omega
    have hfree : ¬ (d.undecided.cnt + 3) % 4 = 1 := by omega
    simp only [logical,words,update_self,hcnt,LinVar.inProgress,found,hone,hfree,
      decide_true,decide_false,if_true,hcur,hv,Desc.field]
    rfl
  · refine logical_eq (by rw [words,update_of_ne hw]) ?_
    intro _
    rw [descs]
    exact ⟨rfl,rfl,rfl⟩

theorem logical_local (here : Local s s' t p) (w : Nat) : logical s' w = logical s w := by
  refine logical_eq (by rw [here.words]) ?_
  intro _
  obtain ⟨hold,hnew,hvar⟩ := here.same (s.words w).val
  rw [hold,hnew,hvar]
  exact ⟨rfl,rfl,rfl⟩

theorem effect_kind (hs : Inv s) (hr : Right s) (k : Kind sys s a t s') :
    (∀ w, logical s' w = logical s w) ∨ ∃ u call, Effect s s' u call := by
  cases k with
  | skip words descs =>
    refine .inl ?_
    intro w
    exact logical_eq (by rw [words]) fun _ => by rw [descs]; exact ⟨rfl,rfl,rfl⟩
  | move _ here | invoke _ _ here | giveBack _ _ here => exact .inl (logical_local here)
  | decide _ _ _ _ words descs pc unseen leads =>
    exact decide_effect hs words descs pc unseen fun var => (leads var).taken
  | resetVar _ _ _ words descs _ old | setVar _ _ words descs _ old | setOld _ _ words descs _ old
  | setNew _ _ words descs _ old =>
    exact .inl (logical_own hs (by rw [old]; rfl) words
      fun u hu => by rw [descs,update_of_ne hu])
  | install _ _ found words descs pc old unseen =>
    exact install_effect hs found words descs pc old unseen
  | clean _ _ _ _ found words descs _ old =>
    exact .inl (clean_silent hs hr found words descs old)

theorem Pc.taken_decides {var var' : LinVar (Option Nat)} (h : p.taken var = true)
    (hd : Decides var var') : p.taken var' = true := by
  have hc : var.committed = true → var'.committed = true := by
    intro hc
    rwa [hd.eq (.inl (committed_iff.mp hc))]
  cases p with
  | help =>
    simp only [Pc.taken,Bool.and_eq_true] at h ⊢
    exact ⟨h.1,hc h.2⟩
  | readStatus => exact hc h
  | giveBack => exact h
  | _ => cases h

theorem taken_kind (k : Kind sys s a t s') (ht : taken s u = true) :
    taken s' u = true ∨ s'.pc u = .idle := by
  have hother : u ≠ t → s'.pc u = s.pc u → s'.descs u = s.descs u → taken s' u = true := by
    intro _ hp hd
    rwa [taken,hp,hd]
  have hfalse : ∀ p, (∀ var, p.taken var = false) → s.pc t = p → u ≠ t := by
    intro p hp hpc hu
    rw [taken,hu,hpc,hp] at ht
    cases ht
  cases k with
  | skip _ descs pc => exact .inl (by rwa [taken,pc,descs])
  | move _ here _ leads =>
    refine .inl ?_
    rw [taken,(here.same u).2.2,here.pc,update_apply]
    split
    next hu => subst hu; rwa [leads.taken]
    next => exact ht
  | invoke _ _ here idle =>
    have hu := hfalse .idle (fun _ => rfl) idle
    rw [taken,(here.same u).2.2,here.pc,update_of_ne hu]
    exact .inl ht
  | giveBack _ _ here =>
    rw [taken,(here.same u).2.2,here.pc,update_apply]
    split
    next => exact .inr rfl
    next => exact .inl ht
  | decide _ d verdict _ _ descs pc _ leads =>
    have hpc : ∀ var, (s'.pc u).taken var = (s.pc u).taken var := by
      intro var
      rw [pc,update_apply]
      split
      next hu => rw [hu,(leads var).taken]
      next => rfl
    refine .inl ?_
    rw [taken,hpc]
    refine Pc.taken_decides ht ?_
    rw [descs,update_apply]
    split
    next hu => rw [hu]; exact (decide_decides _ d verdict).2.2
    next => exact .inl rfl
  | resetVar _ _ _ _ descs pc old | setVar _ _ _ descs pc old | setOld _ _ _ descs pc old
  | setNew _ _ _ descs pc old =>
    have hu := hfalse _ (fun _ => rfl) old
    exact .inl (hother hu (by rw [pc,update_of_ne hu])
      (by rw [descs,update_of_ne hu]))
  | install _ _ _ _ descs pc old =>
    have hu := hfalse _ (fun _ => rfl) old
    exact .inl (hother hu (by rw [pc,update_of_ne hu]) (by rw [descs]))
  | clean h d v _ _ _ descs pc old =>
    refine .inl ?_
    rw [taken,descs,pc,update_apply]
    split
    next hu =>
      rw [taken,hu,old] at ht
      rwa [hu,(leads_done sys h (.cleanCas d v) _).taken]
    next => exact ht

theorem calls_kind (k : Kind sys s a t s') (u : Nat) :
    s.calls u < s'.calls u ∨
      s'.calls u = s.calls u ∧ ((s.pc u).call = none → (s'.pc u).call = none) := by
  have hmove : ∀ p, s'.pc = update s.pc t p → s'.calls = s.calls →
      ((s.pc t).call = none → p.call = none) →
      s'.calls u = s.calls u ∧ ((s.pc u).call = none → (s'.pc u).call = none) := by
    intro p hpc hcalls hp
    refine ⟨by rw [hcalls],?_⟩
    rw [hpc,update_apply]
    split
    next hu => rw [hu]; exact hp
    next => exact id
  cases k with
  | skip _ _ pc unseen => exact .inr ⟨by rw [unseen.calls],by rw [pc]; exact id⟩
  | move p here unseen leads =>
    exact .inr (hmove p here.pc unseen.calls (by rw [leads.call]; exact id))
  | invoke _ _ here _ _ _ _ _ _ calls =>
    rw [calls,here.pc,update_apply,update_apply]
    split
    next hu => rw [hu]; exact .inl (Nat.lt_succ_self _)
    next => exact .inr ⟨rfl,id⟩
  | giveBack _ _ here _ calls =>
    exact .inr (hmove .idle here.pc calls fun _ => rfl)
  | decide _ _ _ p _ _ pc unseen leads =>
    exact .inr (hmove p pc unseen.calls (by rw [(leads (s.descs t).var).call]; exact id))
  | resetVar _ _ p _ _ pc old _ _ call calls =>
    exact .inr (hmove p pc calls (by rw [old,call]; exact id))
  | setVar call c words descs pc old unseen | setOld call c words descs pc old unseen
  | setNew call c words descs pc old unseen | install call c found words descs pc old unseen =>
    exact .inr (hmove _ pc unseen.calls (by rw [old]; exact id))
  | clean h d v _ _ _ _ pc old unseen =>
    have hleads := leads_done sys h (.cleanCas d v) ⟨none,0⟩
    exact .inr (hmove _ pc unseen.calls (by rw [old,hleads.call]; exact id))

def Returns (m : Move State Act) (t : Nat) (b : Bool) : Prop :=
  m.act = .access t ∧ ∃ call, m.pre.pc t = .giveBack call b

/-- Every change of a logical value is the effect of a call on that word, no call has two
effects, and a call that has one returns true. -/
structure ValueSafe (ms : List (Move State Act)) : Prop where
  changes : ∀ m ∈ ms, ∀ w, logical m.post w ≠ logical m.pre w →
    ∃ t call, call.word = w ∧ Effect m.pre m.post t call
  once : ms.Pairwise fun m m' => ∀ t call call', Effect m.pre m.post t call →
    Effect m'.pre m'.post t call' → m.pre.calls t ≠ m'.pre.calls t
  succeeds : ms.Pairwise fun m m' => ∀ t call b, Effect m.pre m.post t call →
    Returns m' t b → m'.pre.calls t = m.pre.calls t → b = true

/-- After the effect of call number `n` of `t`: a later call has begun, or this one has
returned or remembers its effect. -/
def Remembers (s : State) (t n : Nat) : Prop :=
  n < s.calls t ∨ s.calls t = n ∧ ((s.pc t).call = none ∨ taken s t = true)

theorem remembers_kind (k : Kind sys s a t s') (h : Remembers s u n) : Remembers s' u n := by
  rcases calls_kind k u with hlt | ⟨heq,hnone⟩
  · rcases h with h | ⟨h,-⟩
    · exact .inl (by omega)
    · exact .inl (by omega)
  · rcases h with h | ⟨h,hout | ht⟩
    · exact .inl (by omega)
    · exact .inr ⟨by omega,.inl (hnone hout)⟩
    · refine .inr ⟨by omega,?_⟩
      rcases taken_kind k ht with ht' | hidle
      · exact .inr ht'
      · exact .inl (by rw [hidle]; rfl)

/-- Undisturbed runs are safe. -/
theorem value_safety (run : Run (step sys) (fun s a => undisturbed s a) (init g val) ms s) :
    ValueSafe ms := by
  have hinit : Inv (init g val) ∧ Right (init g val) := ⟨init_inv g val,by intro t h d v hp; cases hp⟩
  have hkeep : ∀ s a s', Inv s ∧ Right s → undisturbed s a = true → step sys s a = some s' →
      Inv s' ∧ Right s' := by
    intro s a s' hs hok h
    exact ⟨step_inv hs.1 h,right_kind hs.1 hs.2 hok (step_kind hs.1 h)⟩
  have hpair := run.pairwise (fun s => Inv s ∧ Right s) hinit hkeep
    (fun m s => ∀ t call, Effect m.pre m.post t call → Remembers s t (m.pre.calls t))
    (fun m m' => (∀ t call call', Effect m.pre m.post t call →
        Effect m'.pre m'.post t call' → m.pre.calls t ≠ m'.pre.calls t) ∧
      ∀ t call b, Effect m.pre m.post t call → Returns m' t b →
        m'.pre.calls t = m.pre.calls t → b = true) ?_ ?_ ?_
  · refine ⟨?_,hpair.1.imp fun h => h.1,hpair.1.imp fun h => h.2⟩
    intro m hm w hne
    obtain ⟨⟨hs,hr⟩,-,hstep⟩ := run.each _ hinit hkeep m hm
    rcases effect_kind hs hr (step_kind hs hstep) with hsilent | ⟨t,call,he⟩
    · exact absurd (hsilent w) hne
    · refine ⟨t,call,?_,he⟩
      by_contra hw
      exact hne (he.others w (Ne.symm hw))
  · intro s a s' _ _ _ t call he
    exact .inr ⟨he.calls,.inr he.taken⟩
  · intro m s a s' hs hq _ h t call he
    exact remembers_kind (step_kind hs.1 h) (hq t call he)
  · intro m s a s' hs hq _ h
    refine ⟨?_,?_⟩
    · intro t call call' he he' heq
      rcases hq t call he with hlt | ⟨-,hnone | ht⟩
      · exact absurd heq (Nat.ne_of_lt hlt)
      · rw [he'.running] at hnone
        cases hnone
      · rw [he'.untaken] at ht
        cases ht
    · intro t call b he hret heq
      obtain ⟨-,call',hp⟩ := hret
      simp only at hp heq
      rcases hq t call he with hlt | ⟨-,hnone | ht⟩
      · omega
      · rw [hp] at hnone
        cases hnone
      · rw [taken,hp] at ht
        exact ht

/-- Two threads, with a `CAS_verify` that is helped. -/
theorem value_safety_helped : ∃ ms s,
    Run (step .nonblocking) (fun s a => undisturbed s a) (init 3 fun _ => 0) ms s ∧
      logical s 0 = 1 ∧ s.result 1 = some true ∧ ValueSafe ms := by
  obtain ⟨ms,s,run,hgood⟩ := Run.play (step .nonblocking) undisturbed
    (fun s => logical s 0 = 1 ∧ s.result 1 = some true) (init 3 fun _ => 0)
    ([.start 1 (.casVerify 0 0 1)] ++ replicate 9 (.access 1) ++
      [.start 2 (.load 0)] ++ replicate 8 (.access 2) ++ replicate 6 (.access 1))
    (by decide +kernel)
  simp only [decide_eq_true_eq] at hgood
  exact ⟨ms,s,run,hgood.1,hgood.2,value_safety run⟩

theorem idle_kind (k : Kind sys s a t s') (hu : u ≠ t) : s'.pc u = s.pc u := by
  cases k with
  | skip _ _ pc => rw [pc]
  | move _ here | invoke _ _ here | giveBack _ _ here => rw [here.pc,update_of_ne hu]
  | decide _ _ _ _ _ _ pc | resetVar _ _ _ _ _ pc | clean _ _ _ _ _ _ _ pc
  | setVar _ _ _ _ pc | setOld _ _ _ _ pc | setNew _ _ _ _ pc | install _ _ _ _ _ pc =>
    rw [pc,update_of_ne hu]

theorem idle_play {as : List Act} (hs : Inv s) (h : play (step sys) s as = some s')
    (hu : ∀ a ∈ as, u ≠ a.tid) : s'.pc u = s.pc u := by
  induction as generalizing s with
  | nil => cases h; rfl
  | cons a _ ih =>
    obtain ⟨s1,hs1,hrest⟩ := Option.bind_eq_some_iff.mp h
    rw [ih (step_inv hs hs1) hrest fun b hb => hu b (mem_cons_of_mem _ hb)]
    exact idle_kind (step_kind hs hs1) (hu a mem_cons_self)

/-- Thread 1 makes word 0 go from 0 to 1 and word 1 from 0 to 9. Thread 2 has met its
descriptor in word 0 and only looks at it when thread 1 has stored `var` for the change of
word 0 from 1 to 2: it commits that change, and reads 9 from `new_val`. -/
def staleHelper : List Act :=
  [.start 1 (.casVerify 0 0 1)] ++ replicate 9 (.access 1) ++
  [.start 2 (.load 0),.access 2] ++ replicate 9 (.access 1) ++
  [.start 1 (.casVerify 1 0 9)] ++ replicate 18 (.access 1) ++
  [.start 1 (.casVerify 0 1 2)] ++ replicate 6 (.access 1) ++
  replicate 6 (.access 2) ++ replicate 3 (.access 1)

/-- Word 0 goes from 2 to 9, and no call on it has 9 as its desired value. -/
theorem stale_value_stored : ∃ ms s s',
    Run (step .nonblocking) (fun _ _ => True) (init 3 fun _ => 0)
      (ms ++ [⟨s,.access 2,s'⟩]) s' ∧
    logical s 0 = 2 ∧ logical s' 0 = 9 ∧
    (∀ t call, (s.pc t).call = some call → call = ⟨0,1,2,true⟩) ∧
    ¬ ValueSafe (ms ++ [⟨s,.access 2,s'⟩]) := by
  have hend : ((play (step .nonblocking) (init 3 fun _ => 0) staleHelper).map fun s =>
      ((s.pc 1).call,(s.pc 2).call,logical s 0,
        (step .nonblocking s (.access 2)).map fun s' => logical s' 0)) =
      some (some ⟨0,1,2,true⟩,none,2,some 9) := by decide +kernel
  obtain ⟨s,hplay,hfacts⟩ := Option.map_eq_some_iff.mp hend
  simp only [Prod.mk.injEq,Option.map_eq_some_iff] at hfacts
  obtain ⟨hone,htwo,hbefore,s',hstep,hafter⟩ := hfacts
  have hthreads : ∀ a ∈ staleHelper, a.tid = 1 ∨ a.tid = 2 := by decide
  have hcalls : ∀ t call, (s.pc t).call = some call → call = ⟨0,1,2,true⟩ := by
    intro t call hcall
    by_cases h1 : t = 1
    · rw [h1,hone] at hcall
      exact (Option.some.inj hcall).symm
    · by_cases h2 : t = 2
      · rw [h2,htwo] at hcall
        cases hcall
      · have hidle : s.pc t = .idle := by
          refine idle_play (init_inv 3 fun _ => 0) hplay ?_
          intro a ha heq
          have := hthreads a ha
          omega
        rw [hidle] at hcall
        cases hcall
  obtain ⟨ms,run⟩ := Run.reach .nil hplay
  refine ⟨ms,s,s',run.snoc trivial hstep,hbefore,hafter,hcalls,?_⟩
  intro hsafe
  obtain ⟨t,call,-,he⟩ := hsafe.changes _ (mem_append_right _ mem_cons_self) 0
    (by simp [hbefore,hafter])
  have hcall := hcalls t call he.running
  have hdesired := he.after
  rw [hcall,hafter] at hdesired
  cases hdesired

end Montage.Dcss
