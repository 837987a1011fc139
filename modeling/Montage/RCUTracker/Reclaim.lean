import Montage.RCUTracker.Model
import Mathlib.Data.List.Perm.Subperm
import Mathlib.Data.Nat.Basic

namespace Montage.RCUTracker
open Library Function List

/-- A scan that has passed thread `t` keeps an object from being destructed. -/
def Pc.Covers (t : Nat) (x : Info) : Pc → Prop
  | .scan i minEpoch _ => t < i → less (some x.epoch) minEpoch = false
  | .erase _ minEpoch _ => less (some x.epoch) minEpoch = false
  | _ => True

/-- Objects that thread `b` has retired since thread `a`, number `t`, is in its operation are not
older than its reservation, and spared by a scan. -/
def Guards (t : Nat) (a b : Thread) : Prop :=
  ∀ τ r, a.since = some τ → a.reservation = some r → ∀ x ∈ b.retired, τ ≤ x.called →
    r ≤ x.epoch ∧ b.pc.Covers t x

def Pc.Ok (now epoch : Nat) : Pc → Prop
  | .startStore e => e ≤ epoch
  | .retireLoad _ called => called < now
  | _ => True

structure Thread.Ok (now epoch : Nat) (th : Thread) : Prop where
  inside : ∀ τ, th.since = some τ → τ < now ∧ ∃ r, th.reservation = some r ∧ r ≤ epoch
  past : ∀ x ∈ th.retired, x.called < now
  pc : th.pc.Ok now epoch

structure Inv (cfg : Config) (s : State) : Prop where
  ok : ∀ t, (s.thread t).Ok s.now s.epoch
  guards : ∀ t u, Guards t (s.thread t) (s.thread u)
  outside : ∀ t, cfg.taskNum ≤ t → (s.thread t).since = none

variable {cfg : Config} {s s' : State} {t u : Nat} {th a b : Thread} {now now' epoch epoch' : Nat}

theorem Thread.Ok.mono (h : th.Ok now epoch) (hn : now ≤ now') (he : epoch ≤ epoch') :
    th.Ok now' epoch' := by
  refine ⟨?_,fun x hx => lt_of_lt_of_le (h.past x hx) hn,?_⟩
  · intro τ hτ
    obtain ⟨hlt,r,hr,hle⟩ := h.inside τ hτ
    exact ⟨lt_of_lt_of_le hlt hn,r,hr,le_trans hle he⟩
  · have hpc := h.pc
    cases heq : th.pc with
    | startStore => exact le_trans (heq ▸ hpc : Pc.Ok _ _ _) he
    | retireLoad => exact lt_of_lt_of_le (heq ▸ hpc : Pc.Ok _ _ _) hn
    | _ => trivial

section
variable (h : Inv cfg s)
include h

omit h in
theorem less_min {e : Nat} {res minEpoch : Option Nat}
    (h : less (some e) minEpoch = false ∨ less (some e) res = false) :
    less (some e) (if less res minEpoch then res else minEpoch) = false := by
  cases res with
  | none =>
    simp only [less,Bool.true_eq_false,or_false,Bool.false_eq_true,if_false] at h ⊢
    exact h
  | some r =>
    cases minEpoch with
    | none => simpa [less] using h
    | some m =>
      simp only [less,decide_eq_false_iff_not,not_lt] at h
      by_cases hlt : r < m
      · simp only [less,hlt,decide_true,if_true,decide_eq_false_iff_not]
        omega
      · simp only [less,hlt,decide_false,Bool.false_eq_true,if_false,decide_eq_false_iff_not]
        omega

section
variable (ht : t < cfg.taskNum)
include ht

theorem Inv.put (hthread : s'.thread = update s.thread t th) (hnow : s'.now = s.now + 1)
    (hepoch : s.epoch ≤ s'.epoch) (hok : th.Ok (s.now + 1) s'.epoch) (hself : Guards t th th)
    (hon : ∀ u ≠ t, Guards t th (s.thread u)) (hby : ∀ u ≠ t, Guards u (s.thread u) th) :
    Inv cfg s' := by
  have hsame : s'.thread t = th := by rw [hthread,update_self]
  have hother : ∀ u, u ≠ t → s'.thread u = s.thread u :=
    fun u hu => by rw [hthread,update_of_ne hu]
  refine ⟨?_,?_,?_⟩
  · intro u
    rw [hnow]
    by_cases hu : u = t
    · rw [hu,hsame]
      exact hok
    · rw [hother u hu]
      exact (h.ok u).mono (Nat.le_succ _) hepoch
  · intro u v
    by_cases hu : u = t <;> by_cases hv : v = t
    · rw [hu,hv,hsame]
      exact hself
    · rw [hu,hsame,hother v hv]
      exact hon v hv
    · rw [hv,hsame,hother u hu]
      exact hby u hu
    · rw [hother u hu,hother v hv]
      exact h.guards u v
  · intro u hu
    rw [hother u (by omega)]
    exact h.outside u hu

theorem Inv.goto (hthread : s'.thread = update s.thread t th) (hnow : s'.now = s.now + 1)
    (hepoch : s.epoch ≤ s'.epoch) (hreservation : th.reservation = (s.thread t).reservation)
    (hsince : th.since = (s.thread t).since) (hretired : th.retired ⊆ (s.thread t).retired)
    (hpc : th.pc.Ok (s.now + 1) s'.epoch)
    (hcovers : ∀ u τ r, (s.thread u).since = some τ → (s.thread u).reservation = some r →
      ∀ x ∈ th.retired, τ ≤ x.called → r ≤ x.epoch → (s.thread t).pc.Covers u x → th.pc.Covers u x) :
    Inv cfg s' := by
  have hby : ∀ u, Guards u (s.thread u) th := by
    intro u τ r hτ hr x hx hle
    obtain ⟨hrx,hold⟩ := h.guards u t τ r hτ hr x (hretired hx) hle
    exact ⟨hrx,hcovers u τ r hτ hr x hx hle hrx hold⟩
  have hok := h.ok t
  refine h.put ht hthread hnow hepoch ⟨?_,?_,hpc⟩ ?_ ?_ fun u _ => hby u
  · intro τ hτ
    rw [hsince] at hτ
    obtain ⟨hlt,r,hr,hle⟩ := hok.inside τ hτ
    exact ⟨Nat.lt_succ_of_lt hlt,r,hreservation.trans hr,le_trans hle hepoch⟩
  · intro x hx
    exact Nat.lt_succ_of_lt (hok.past x (hretired hx))
  · intro τ r hτ hr
    exact hby t τ r (hsince ▸ hτ) (hreservation ▸ hr)
  · intro u _ τ r hτ hr
    exact h.guards t u τ r (hsince ▸ hτ) (hreservation ▸ hr)

theorem Inv.start {e : Nat} (hpc : (s.thread t).pc = .startStore e) :
    Inv cfg (s.put t { s.thread t with pc := .idle, reservation := some e, since := some s.now }) := by
  have hfresh : ∀ u x τ, some s.now = some τ → x ∈ (s.thread u).retired → ¬τ ≤ x.called := by
    intro u x τ hτ hx hle
    cases hτ
    exact absurd ((h.ok u).past x hx) (not_lt.mpr hle)
  have hok := h.ok t
  have hle := hok.pc
  rw [hpc] at hle
  refine h.put ht rfl rfl le_rfl ⟨?_,?_,trivial⟩ ?_ ?_ ?_
  · intro τ hτ
    cases hτ
    exact ⟨Nat.lt_succ_self _,e,rfl,hle⟩
  · intro x hx
    exact Nat.lt_succ_of_lt (hok.past x hx)
  · intro τ r hτ _ x hx hle
    exact absurd hle (hfresh t x τ hτ hx)
  · intro u _ τ r hτ _ x hx hle
    exact absurd hle (hfresh u x τ hτ hx)
  · intro u _ τ r hτ hr x hx hle
    exact ⟨(h.guards u t τ r hτ hr x hx hle).1,trivial⟩

theorem Inv.finish_op :
    Inv cfg (s.put t { s.thread t with pc := .idle, reservation := none, since := none }) := by
  refine h.put ht rfl rfl le_rfl ⟨?_,?_,trivial⟩ ?_ ?_ ?_
  · intro τ hτ
    cases hτ
  · intro x hx
    exact Nat.lt_succ_of_lt ((h.ok t).past x hx)
  · intro τ r hτ
    cases hτ
  · intro u _ τ r hτ
    cases hτ
  · intro u _ τ r hτ hr x hx hle
    exact ⟨(h.guards u t τ r hτ hr x hx hle).1,trivial⟩

theorem Inv.retire {obj called : Nat} (hpc : (s.thread t).pc = .retireLoad obj called) :
    Inv cfg (s.put t { s.thread t with
      pc := .retireBump, retired := (s.thread t).retired ++ [⟨obj,s.epoch,called⟩] }) := by
  have hok := h.ok t
  have hby : ∀ u, Guards u (s.thread u) { s.thread t with
      pc := .retireBump, retired := (s.thread t).retired ++ [⟨obj,s.epoch,called⟩] } := by
    intro u τ r hτ hr x hx hle
    refine ⟨?_,trivial⟩
    rcases mem_append.mp hx with hx | hx
    · exact (h.guards u t τ r hτ hr x hx hle).1
    · cases mem_singleton.mp hx
      obtain ⟨-,r',hr',hle'⟩ := (h.ok u).inside τ hτ
      cases hr.symm.trans hr'
      exact hle'
  have hcalled := hok.pc
  rw [hpc] at hcalled
  refine h.put ht rfl rfl le_rfl ⟨?_,?_,trivial⟩ (hby t) (fun u _ => h.guards t u)
    fun u _ => hby u
  · intro τ hτ
    obtain ⟨hlt,hres⟩ := hok.inside τ hτ
    exact ⟨Nat.lt_succ_of_lt hlt,hres⟩
  · intro x hx
    rcases mem_append.mp hx with hx | hx
    · exact Nat.lt_succ_of_lt (hok.past x hx)
    · cases mem_singleton.mp hx
      exact Nat.lt_succ_of_lt hcalled

theorem Inv.call {op : Op} (hidle : (s.thread t).pc = .idle)
    (hs : s.call t op = some s') : Inv cfg s' := by
  cases op with
  | startOp | endOp =>
    simp only [State.call] at hs
    split at hs <;> cases hs
    exact h.goto ht rfl rfl le_rfl rfl rfl (List.Subset.refl _) trivial
      fun _ _ _ _ _ _ _ _ _ _ => trivial
  | retire obj =>
    cases obj with
    | none =>
      cases hs
      exact h.goto ht rfl rfl le_rfl rfl rfl (List.Subset.refl _)
        (by rw [hidle]; trivial) fun _ _ _ _ _ _ _ _ _ hcovers => hcovers
    | some =>
      cases hs
      exact h.goto ht rfl rfl le_rfl rfl rfl (List.Subset.refl _) (Nat.lt_succ_self s.now)
        fun _ _ _ _ _ _ _ _ _ _ => trivial
  | empty =>
    cases hs
    exact h.goto ht rfl rfl le_rfl rfl rfl (List.Subset.refl _) trivial
      fun _ _ _ _ _ _ _ _ _ _ hlt => absurd hlt (Nat.not_lt_zero _)

theorem Inv.tick (hs : s.tick cfg t = some s') : Inv cfg s' := by
  simp only [State.tick] at hs
  split at hs
  next => cases hs
  next =>
    cases hs
    exact h.goto ht rfl rfl le_rfl rfl rfl (List.Subset.refl _) (le_refl s.epoch)
      fun _ _ _ _ _ _ _ _ _ _ => trivial
  next hpc =>
    cases hs
    exact h.start ht hpc
  next =>
    cases hs
    exact h.finish_op ht
  next hpc =>
    cases hs
    exact h.retire ht hpc
  next =>
    cases hs
    have hgrow : s.epoch ≤
        if (s.thread t).retireCounter % (cfg.epochFreq * cfg.taskNum) = 0 then s.epoch + 1
        else s.epoch := by
      split <;> omega
    generalize (if (s.thread t).retireCounter % (cfg.epochFreq * cfg.taskNum) = 0 then s.epoch + 1
      else s.epoch) = epoch at hgrow ⊢
    split
    next =>
      exact h.goto ht rfl rfl hgrow rfl rfl (List.Subset.refl _) trivial
        fun _ _ _ _ _ _ _ _ _ _ hlt => absurd hlt (Nat.not_lt_zero _)
    next =>
      exact h.goto ht rfl rfl hgrow rfl rfl (List.Subset.refl _) trivial
        fun _ _ _ _ _ _ _ _ _ _ => trivial
  next hpc =>
    split at hs <;> cases hs
    next =>
      refine h.goto ht rfl rfl le_rfl rfl rfl (List.Subset.refl _) trivial ?_
      intro u τ r hτ hr x hx hle hrx hold hlt
      rw [hpc] at hold
      refine less_min ?_
      rcases Nat.lt_succ_iff_lt_or_eq.mp hlt with hui | rfl
      · exact .inl (hold hui)
      · rw [hr]
        exact .inr (by simpa [less] using hrx)
    next =>
      refine h.goto ht rfl rfl le_rfl rfl rfl (List.Subset.refl _) trivial ?_
      intro u τ r hτ hr x hx hle hrx hold
      rw [hpc] at hold
      refine hold ?_
      by_contra hge
      cases hτ.symm.trans (h.outside u (by omega))
  next hpc =>
    split at hs
    next =>
      cases hs
      exact h.goto ht rfl rfl le_rfl rfl rfl (List.Subset.refl _) trivial
        fun _ _ _ _ _ _ _ _ _ _ => trivial
    next x hx =>
      split at hs <;> cases hs
      next =>
        exact h.goto ht rfl rfl le_rfl rfl rfl (fun _ => mem_of_mem_eraseIdx)
          (by rw [hpc]; trivial) fun _ _ _ _ _ _ _ _ _ hcovers => hcovers
      next =>
        refine h.goto ht rfl rfl le_rfl rfl rfl (List.Subset.refl _) trivial ?_
        intro u τ r hτ hr x hx hle hrx hold
        rw [hpc] at hold
        exact hold

end

theorem Inv.step {act : Act} (hs : step cfg s act = some s') : Inv cfg s' := by
  cases act with
  | call =>
    simp only [RCUTracker.step] at hs
    split at hs
    next hc => exact h.call hc.1 hc.2 hs
    next => cases hs
  | tick =>
    simp only [RCUTracker.step] at hs
    split at hs
    next ht => exact h.tick ht hs
    next => cases hs

omit h in
theorem init_inv : Inv cfg init where
  ok _ := ⟨fun _ h => (by cases h),fun _ h => (by cases h),trivial⟩
  guards _ _ := fun _ _ h => (by cases h)
  outside _ _ := rfl

end

def Thread.held (th : Thread) : List Nat :=
  th.retired.map Info.obj ++
    match th.pc with
    | .retireLoad obj _ => [obj]
    | _ => []

def Accounted (s : State) : Prop :=
  ∀ t obj, s.destructed.count (t,obj) + (s.thread t).held.count obj = s.calls.count (t,obj)

theorem Accounted.put (h : Accounted s) (hthread : s'.thread = update s.thread t th)
    (hcalls : s'.calls = s.calls) (hdestructed : s'.destructed = s.destructed)
    (hheld : th.held = (s.thread t).held) : Accounted s' := by
  intro u obj
  rw [hcalls,hdestructed,hthread,update_apply]
  split
  next hu => rw [hu,hheld,h t obj]
  next => exact h u obj

theorem count_log {log : List (Nat × Nat)} {o obj : Nat} :
    ((t,o) :: log).count (u,obj) = log.count (u,obj) + if u = t ∧ obj = o then 1 else 0 := by
  rw [count_cons]
  congr 1
  by_cases hmatch : u = t ∧ obj = o
  · obtain ⟨rfl,rfl⟩ := hmatch
    simp
  · rw [if_neg hmatch,if_neg]
    intro heq
    cases beq_iff_eq.mp heq
    exact hmatch ⟨rfl,rfl⟩

theorem Accounted.call {op : Op} (h : Accounted s) (hidle : (s.thread t).pc = .idle)
    (hs : s.call t op = some s') : Accounted s' := by
  cases op with
  | startOp | endOp =>
    simp only [State.call] at hs
    split at hs <;> cases hs
    exact h.put rfl rfl rfl (by simp [Thread.held,hidle])
  | retire obj =>
    cases obj with
    | none =>
      cases hs
      exact h.put rfl rfl rfl rfl
    | some o =>
      cases hs
      intro u obj
      simp only [State.put,update_apply,count_log]
      have hcount := h u obj
      split
      next hu =>
        rw [hu] at hcount ⊢
        simp only [Thread.held,hidle,append_nil,count_append,count_singleton] at hcount ⊢
        by_cases ho : obj = o
        · simp only [ho,beq_self_eq_true,if_true,and_self] at hcount ⊢
          omega
        · simpa [ho,Ne.symm ho] using hcount
      next hu => simpa [hu] using hcount
  | empty =>
    cases hs
    exact h.put rfl rfl rfl (by simp [Thread.held,hidle])

theorem Accounted.tick (h : Accounted s) (hs : s.tick cfg t = some s') : Accounted s' := by
  simp only [State.tick] at hs
  split at hs
  next => cases hs
  iterate 4
    next hpc =>
      cases hs
      exact h.put rfl rfl rfl (by simp [Thread.held,hpc])
  next hpc =>
    cases hs
    refine h.put rfl rfl rfl ?_
    split <;> simp [Thread.held,Thread.finish,hpc]
  next hpc =>
    split at hs <;> cases hs <;> exact h.put rfl rfl rfl (by simp [Thread.held,hpc])
  next hpc =>
    split at hs
    next =>
      cases hs
      exact h.put rfl rfl rfl (by simp [Thread.held,Thread.finish,hpc])
    next x hx =>
      split at hs <;> cases hs
      next =>
        obtain ⟨hk,hget⟩ := List.getElem?_eq_some_iff.mp hx
        -- the object moves from the list to the log
        have hperm := (getElem_cons_eraseIdx_perm hk).map Info.obj
        rw [hget,map_cons] at hperm
        intro u obj
        have hcount := h u obj
        simp only [State.put,update_apply,count_log]
        by_cases hu : u = t
        · rw [hu] at hcount ⊢
          simp only [if_true,Thread.held,hpc,append_nil] at hcount ⊢
          rw [← hperm.count_eq,count_cons] at hcount
          by_cases ho : obj = x.obj
          · simp only [ho,beq_self_eq_true,if_true,and_self] at hcount ⊢
            omega
          · simpa [ho,Ne.symm ho] using hcount
        · simpa [hu] using hcount
      next => exact h.put rfl rfl rfl (by simp [Thread.held,hpc])

theorem Accounted.step {act : Act} (h : Accounted s) (hs : step cfg s act = some s') :
    Accounted s' := by
  cases act with
  | call =>
    simp only [RCUTracker.step] at hs
    split at hs
    next hc => exact h.call hc.2 hs
    next => cases hs
  | tick =>
    simp only [RCUTracker.step] at hs
    split at hs
    next => exact h.tick hs
    next => cases hs

/-- Thread 1 retires an object while thread 0 is in an operation, and destructs it when that
operation is over. -/
def waiting : List Act :=
  [.call 0 .startOp,.tick 0,.tick 0,.call 1 (.retire (some 7)),.tick 1,.tick 1,.tick 1,.tick 1,
    .tick 1,.tick 1,.tick 1,.call 0 .endOp,.tick 0,.call 1 .empty,.tick 1,.tick 1,.tick 1,.tick 1]

end Montage.RCUTracker
