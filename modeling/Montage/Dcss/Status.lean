import Montage.Dcss.Safety

namespace Montage.Dcss
open Library Function

variable {s s' : State} {p : Pc} {t : Nat} {sys : System} {a : Act}
  {d : LinVar (Option Nat)}

/-- A thread calls `CAS_verify` at most once in an operation, and a descriptor is committed
only while it is installed. -/
def orderly (s : State) : Act → Bool
  | .start t (.casVerify _ _ _) => s.epochs t = nullEpoch || s.result t = none
  | .access t =>
    match s.pc t with
    | .help h (.decide d true) =>
      match d.val with
      | none => true
      | some w => (s.descs h.desc).var ≠ d.undecided || s.words w = ⟨h.desc,d.undecided.cnt⟩
    | _ => true
  | _ => true

/-- The status of a thread's descriptor is what its `CAS_verify` returns, once it has
installed the descriptor or is about to return, and before that what the last one has
returned since `reinit`. -/
structure Agrees (sys : System) (s : State) (t : Nat) : Prop where
  fresh : (s.pc t).begun sys = true → s.result t = none
  late : (s.pc t).late = true → taken s t = (s.descs t).var.committed
  early : (s.pc t).late = false → (s.descs t).var.committed = decide (s.result t = some true)

theorem Agrees.uncommitted (h : Agrees sys s t) (hb : (s.pc t).begun sys = true)
    (hl : (s.pc t).late = false) : (s.descs t).var.committed = false := by
  rw [h.early hl,h.fresh hb]
  rfl

theorem Agrees.leads (h : Agrees sys s t) (hl : Leads sys (s.descs t).var (s.pc t) p)
    (hvar : (s'.descs t).var = (s.descs t).var) (hpc : s'.pc t = p)
    (hres : s'.result t = s.result t) : Agrees sys s' t := by
  refine ⟨?_,?_,?_⟩
  · intro hb
    rw [hpc] at hb
    rw [hres]
    exact h.fresh (hl.begun hb)
  · intro hlate
    rw [hpc] at hlate
    rw [taken,hpc,hvar,hl.taken]
    cases hold : (s.pc t).late with
    | true => exact h.late hold
    | false =>
      rw [Pc.taken_of_not_late hold,
        h.uncommitted (hl.begun (Pc.begun_of_late hlate)) hold]
  · intro hearly
    rw [hpc] at hearly
    rw [hvar,hres]
    apply h.early
    cases hold : (s.pc t).late with
    | true => rw [hl.late hold] at hearly; cases hearly
    | false => rfl

theorem Agrees.setup (h : Agrees sys s t) (hb : (s.pc t).begun sys = true)
    (hpc : (s'.pc t).late = false)
    (hvar : (s'.descs t).var.committed = false) (hres : s'.result t = s.result t) :
    Agrees sys s' t := by
  have hfresh := h.fresh hb
  refine ⟨fun _ => by rw [hres,hfresh],by rw [hpc]; simp,?_⟩
  intro _
  rw [hvar,hres,hfresh]
  rfl

/-- A thread that makes no access while its descriptor is left alone, aborted, or committed
where it is installed. -/
theorem Agrees.watches (h : Agrees sys s t) (hpc : s'.pc t = s.pc t)
    (hres : s'.result t = s.result t)
    (hvar : (s'.descs t).var.committed = (s.descs t).var.committed ∨ (s.pc t).posted ≠ none) :
    Agrees sys s' t := by
  by_cases hposted : (s.pc t).posted = none
  · have hc := hvar.resolve_right (not_not.mpr hposted)
    refine ⟨by rw [hpc,hres]; exact h.fresh,?_,by rw [hpc,hc,hres]; exact h.early⟩
    intro hlate
    rw [hpc] at hlate
    have hold := h.late hlate
    rw [hc,← hold,taken,taken,hpc]
    cases hp : s.pc t with
    | help =>
      rw [hp] at hlate hposted
      simp only [Pc.posted] at hposted
      simp only [Pc.late,hposted] at hlate
      cases hlate
    | readStatus => exact hc
    | _ => rfl
  · obtain ⟨call,hposted⟩ := Option.ne_none_iff_exists'.mp hposted
    obtain ⟨-,-,hlate⟩ := Pc.posted_taken hposted (s.descs t).var
    refine ⟨by rw [hpc,hres]; exact h.fresh,?_,by rw [hpc,hlate]; simp⟩
    intro _
    rw [taken,hpc]
    exact (Pc.posted_taken hposted _).1

theorem init_agrees (sys : System) (g : Nat) (val : Nat → Nat) (t : Nat) :
    Agrees sys (init g val) t :=
  ⟨by simp [init,Pc.begun],by simp [init,Pc.late],fun _ => rfl⟩

theorem abort_committed (D : Desc) (d : LinVar (Option Nat)) :
    (D.abort d).var.committed = D.var.committed := by
  unfold Desc.abort
  split
  next h =>
    rw [h,Bool.eq_iff_iff,committed_iff,committed_iff]
    simp only [LinVar.undecided]
    omega
  next => rfl

theorem orderly_decide (hs : Inv s) (hok : orderly s a = true)
    (commit : verdict = true → ∃ h, a = .access t ∧ s.pc t = .help h (.decide d true) ∧
      h.desc = D) :
    ((s.descs D).decide d verdict).var.committed = (s.descs D).var.committed ∨
      (s.pc D).posted ≠ none := by
  cases verdict with
  | false => exact .inl (abort_committed _ d)
  | true =>
    obtain ⟨h,rfl,hp,rfl⟩ := commit rfl
    by_cases hvar : (s.descs h.desc).var = d.undecided
    · refine .inr ?_
      have hval := (hs.helper t h _ hp).2
      have hw : s.words h.word = ⟨h.desc,d.undecided.cnt⟩ := by
        simpa [orderly,hp,hval,hvar] using hok
      obtain ⟨call,hposted,-⟩ := hs.installed h.word (by
        rw [hw]
        simp only [LinVar.undecided]
        omega)
      rw [hw] at hposted
      rw [hposted]
      simp
    · refine .inl ?_
      simp [Desc.decide,Desc.commit,hvar]

theorem agrees_kind (hs : Inv s) (hag : ∀ u, Agrees sys s u) (hok : orderly s a = true)
    (k : Kind sys s a t s') (u : Nat) : Agrees sys s' u := by
  have hother : u ≠ t → ∀ p, s'.pc = update s.pc t p → s'.result u = s.result u →
      (s'.descs u).var = (s.descs u).var → Agrees sys s' u := by
    intro hu p hpc hres hvar
    exact (hag u).watches (by rw [hpc,update_of_ne hu]) hres (.inl (by rw [hvar]))
  cases k with
  | skip _ descs pc unseen =>
    exact (hag u).watches (by rw [pc]) (by rw [unseen.result]) (.inl (by rw [descs]))
  | move p here unseen leads =>
    by_cases hu : u = t
    · subst hu
      exact (hag u).leads leads (here.same u).2.2 (by rw [here.pc,update_self])
        (by rw [unseen.result])
    · exact hother hu p here.pc (by rw [unseen.result]) (here.same u).2.2
  | invoke _ p here idle _ _ late begun request _ result =>
    by_cases hu : u = t
    · subst hu
      have hpc : s'.pc u = p := by rw [here.pc,update_self]
      refine ⟨?_,by rw [hpc,late]; simp,?_⟩
      · intro hb
        rw [hpc] at hb
        obtain ⟨w,expected,desired,rfl⟩ := request
        rw [result]
        simpa [orderly,begun hb] using hok
      · intro _
        rw [(here.same u).2.2,result]
        exact (hag u).early (by rw [idle]; rfl)
    · exact hother hu p here.pc (by rw [result]) (here.same u).2.2
  | giveBack _ b here pc _ result =>
    by_cases hu : u = t
    · subst hu
      have hpc : s'.pc u = .idle := by rw [here.pc,update_self]
      refine ⟨by simp [hpc,Pc.begun],by simp [hpc,Pc.late],?_⟩
      intro _
      have hlate := (hag u).late (by rw [pc]; rfl)
      rw [taken,pc] at hlate
      rw [(here.same u).2.2,result,update_self,← hlate]
      cases b <;> rfl
    · exact hother hu _ here.pc (by rw [result,update_of_ne hu]) (here.same u).2.2
  | decide _ _ _ _ _ descs pc unseen leads _ commit =>
    -- first the decision, then the move of the thread that has made it
    have hdecided : ∀ v, Agrees sys { s with descs := s'.descs } v := by
      intro v
      refine (hag v).watches rfl rfl ?_
      simp only [descs,update_apply]
      split
      next hv => rw [hv]; exact orderly_decide hs hok commit
      next => exact .inl rfl
    by_cases hu : u = t
    · subst hu
      exact (hdecided u).leads (leads _) rfl (by rw [pc,update_self])
        (by rw [unseen.result])
    · exact (hdecided u).watches (by rw [pc,update_of_ne hu]) (by rw [unseen.result])
        (.inl rfl)
  | resetVar _ _ p _ descs pc _ _ late _ _ result =>
    by_cases hu : u = t
    · subst hu
      have hpc : s'.pc u = p := by rw [pc,update_self]
      refine ⟨?_,by rw [hpc,late]; simp,?_⟩
      · intro _
        rw [result,update_self]
      · intro _
        rw [descs,result,update_self,update_self]
        rfl
    · exact hother hu p pc (by rw [result,update_of_ne hu])
        (by rw [descs,update_of_ne hu])
  | setVar _ c _ descs pc old unseen =>
    by_cases hu : u = t
    · subst hu
      have heven : c % 4 = 0 := by
        have howner := hs.owner u
        rw [old] at howner
        exact howner.2.1.even
      refine (hag u).setup (by rw [old]; rfl)
        (by rw [pc,update_self]; rfl) ?_ (by rw [unseen.result])
      rw [descs,update_self]
      simp only [LinVar.committed,decide_eq_false_iff_not]
      omega
    · exact hother hu _ pc (by rw [unseen.result]) (by rw [descs,update_of_ne hu])
  | setOld call c words descs pc old unseen | setNew call c words descs pc old unseen =>
    by_cases hu : u = t
    · subst hu
      have hopen := (hag u).uncommitted (by rw [old]; rfl) (by rw [old]; rfl)
      exact (hag u).setup (by rw [old]; rfl)
        (by rw [pc,update_self]; rfl) (by rw [descs,update_self]; exact hopen)
        (by rw [unseen.result])
    · exact hother hu _ pc (by rw [unseen.result]) (by rw [descs,update_of_ne hu])
  | install call _ _ _ descs pc old unseen =>
    by_cases hu : u = t
    · subst hu
      have hpc : s'.pc u = .help ⟨u,call.word,.check call⟩ .load := by rw [pc,update_self]
      refine ⟨?_,?_,by simp [hpc,Pc.late,After.own]⟩
      · intro _
        rw [unseen.result]
        exact (hag u).fresh (by rw [old]; rfl)
      · intro _
        rw [taken,hpc]
        rfl
    · exact hother hu _ pc (by rw [unseen.result]) (by rw [descs])
  | clean h _ _ _ _ _ descs pc old unseen =>
    by_cases hu : u = t
    · subst hu
      refine (hag u).leads ?_ (by rw [descs]) (by rw [pc,update_self])
        (by rw [unseen.result])
      rw [old]
      exact leads_done sys h _ _
    · exact hother hu _ pc (by rw [unseen.result]) (by rw [descs])

/-- In orderly runs the descriptor of a thread is committed exactly if its `CAS_verify`
has returned true, from then on until the next `reinit`. -/
theorem status_agrees (run : Run (step sys) (fun s a => orderly s a) (init g val) ms s)
    (h : s.result t = some b) : (s.descs t).var.committed = true ↔ b = true := by
  obtain ⟨hs,hag⟩ := run.invariant (fun s => Inv s ∧ ∀ u, Agrees sys s u)
    ⟨init_inv g val,init_agrees sys g val⟩ (by
      intro s a s' hs hok hstep
      exact ⟨step_inv hs.1 hstep,agrees_kind hs.1 hs.2 hok (step_kind hs.1 hstep)⟩)
  cases hlate : (s.pc t).late with
  | true =>
    rw [(hag t).fresh (Pc.begun_of_late hlate)] at h
    cases h
  | false =>
    rw [(hag t).early hlate,h]
    cases b <;> decide

/-- Thread 1 commits with the help of thread 2. -/
theorem status_agrees_helped : ∃ ms s,
    Run (step .nonblocking) (fun s a => orderly s a) (init 3 fun _ => 0) ms s ∧
      s.result 1 = some true ∧ ((s.descs 1).var.committed = true ↔ true = true) := by
  obtain ⟨ms,s,run,hgood⟩ := Run.play (step .nonblocking) orderly
    (fun s => s.result 1 = some true) (init 3 fun _ => 0)
    ([.start 1 (.casVerify 0 0 1)] ++ List.replicate 9 (.access 1) ++
      [.start 2 (.load 0)] ++ List.replicate 8 (.access 2) ++ List.replicate 6 (.access 1))
    (by decide +kernel)
  have hresult : s.result 1 = some true := by simpa using hgood
  exact ⟨ms,s,run,hresult,status_agrees run hresult⟩

/-- Thread 2 has met the descriptor of thread 1 in word 0. When thread 1 has stored `var`
for its next `CAS_verify` of word 0, thread 3 changes the word and thread 2 commits the
descriptor, so that the CAS that installs it fails. -/
def lateHelper : List Act :=
  [.start 1 (.casVerify 0 0 1)] ++ List.replicate 9 (.access 1) ++
  [.start 2 (.load 0),.access 2] ++ List.replicate 9 (.access 1) ++
  [.start 1 (.casVerify 0 1 2)] ++ List.replicate 8 (.access 1) ++
  [.start 3 (.casVerify 0 1 3)] ++ List.replicate 18 (.access 3) ++
  List.replicate 4 (.access 2) ++ List.replicate 2 (.access 1)

/-- The call returns false and its descriptor is committed. -/
theorem failed_call_committed : ∃ ms s,
    Run (step .nonblocking) (fun _ _ => True) (init 3 fun _ => 0) ms s ∧
      s.pc 1 = .idle ∧ s.result 1 = some false ∧ (s.descs 1).var.committed = true := by
  have hend : ((play (step .nonblocking) (init 3 fun _ => 0) lateHelper).map fun s =>
      (s.pc 1,s.result 1,(s.descs 1).var.committed)) = some (.idle,some false,true) := by
    decide +kernel
  obtain ⟨s,hplay,hfacts⟩ := Option.map_eq_some_iff.mp hend
  simp only [Prod.mk.injEq] at hfacts
  obtain ⟨ms,run⟩ := Run.reach .nil hplay
  exact ⟨ms,s,run,hfacts⟩

end Montage.Dcss
