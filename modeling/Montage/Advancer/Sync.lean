import Montage.Basic
import Montage.Library.Runs

namespace Montage.Advancer
open Library Function List Option

abbrev Tid := Nat

/-- Where a thread stands in `DedicatedEpochAdvancer::sync(c)` or in the loop of the
dedicated advancer thread. A stop names the shared access it makes next; the number
`e` is the local `curr_epoch`. -/
inductive Pc where
  | idle
  | loadTarget (c : Nat)
  | raiseTarget (c curr : Nat)
  | getEpoch (c : Nat)
  | onEpochEnd (c e : Nat)
  | epochCas (c e : Nat)
  | onEpochBegin (c e : Nat)
  | returned (c : Nat)
  | advTarget (e : Nat)
  | advEnd (e : Nat)
  | advCas (e : Nat)
  | advBegin (e : Nat)
  deriving DecidableEq

/-- `ended` lists the calls of `on_epoch_end` that have completed and `increments` the
successful epoch increments, each with the thread that made it. -/
structure State where
  globalEpoch : Nat
  targetEpoch : Nat
  pc : Tid → Pc
  ended : List (Tid × Nat)
  increments : List (Tid × Nat)

def State.goto (s : State) (t : Tid) (p : Pc) : State :=
  { s with pc := update s.pc t p }

def init (g : Nat) : State := ⟨g,0,fun _ => .idle,[],[]⟩

inductive Act where
  | sync (t : Tid) (c : Nat)
  | advancer (t : Tid)
  | step (t : Tid)

/-- One shared access of thread `t`. `epoch_CAS` takes `curr_epoch` by reference: when
it fails it overwrites the variable with the epoch it found, and the `for` loop of
`sync` then increments that. The advancer's loop has no such increment. -/
def stepThread (s : State) (t : Tid) : Option State :=
  match s.pc t with
  | .idle | .returned _ => none
  | .loadTarget c => some (s.goto t (.raiseTarget c s.targetEpoch))
  | .raiseTarget c curr =>
    if curr < c + 2 then
      if s.targetEpoch = curr then some { s.goto t (.getEpoch c) with targetEpoch := c + 2 }
      else some (s.goto t (.raiseTarget c s.targetEpoch))
    else some (s.goto t (.getEpoch c))
  | .getEpoch c => some (s.goto t (.onEpochEnd c s.globalEpoch))
  | .onEpochEnd c e =>
    if e < c + 2 then some { s.goto t (.epochCas c e) with ended := (t,e) :: s.ended }
    else some (s.goto t (.returned c))
  | .epochCas c e =>
    if s.globalEpoch = e then
      some { s.goto t (.onEpochBegin c e) with
        globalEpoch := e + 1, increments := (t,e) :: s.increments }
    else some (s.goto t (.onEpochEnd c (s.globalEpoch + 1)))
  | .onEpochBegin c e => some (s.goto t (.onEpochEnd c (e + 1)))
  | .advTarget e =>
    some { s.goto t (.advEnd e) with
      targetEpoch := if s.targetEpoch = e then e + 1 else s.targetEpoch }
  | .advEnd e => some { s.goto t (.advCas e) with ended := (t,e) :: s.ended }
  | .advCas e =>
    if s.globalEpoch = e then
      some { s.goto t (.advBegin (e + 1)) with
        globalEpoch := e + 1, increments := (t,e) :: s.increments }
    else some (s.goto t (.advTarget s.globalEpoch))
  | .advBegin e => some (s.goto t (.advTarget e))

def canCall : Pc → Bool
  | .idle | .returned _ => true
  | _ => false

def step (s : State) : Act → Option State
  | .sync t c => if canCall (s.pc t) then some (s.goto t (.loadTarget c)) else none
  | .advancer t => if canCall (s.pc t) then some (s.goto t (.advTarget initEpoch)) else none
  | .step t => stepThread s t

/-- What is known of a thread at each of its stops. The loop head of `sync` past `c+2`
is where the call returns. -/
def Stands (g : Nat) (ended : List (Tid × Nat)) (t : Tid) : Pc → Prop
  | .onEpochEnd c e => c + 2 ≤ e → c + 2 ≤ g
  | .epochCas _ e | .advCas e => (t,e) ∈ ended
  | .onEpochBegin _ e => e + 1 ≤ g
  | .returned c => c + 2 ≤ g
  | _ => True

theorem Stands.mono (h : Stands g ended t p) (hg : g ≤ g') (he : ended ⊆ ended') :
    Stands g' ended' t p := by
  cases p with
  | onEpochEnd => exact fun hc => Nat.le_trans (h hc) hg
  | epochCas | advCas => exact he h
  | onEpochBegin | returned => exact Nat.le_trans h hg
  | _ => trivial

structure Inv (s : State) : Prop where
  stands : ∀ t, Stands s.globalEpoch s.ended t (s.pc t)
  ended : ∀ x ∈ s.increments, x ∈ s.ended

theorem init_inv (g : Nat) : Inv (init g) :=
  ⟨fun _ => trivial,by simp [init]⟩

/-- A move changes one thread's stop and lets the epoch and the log grow, so only that
thread's new stop has to be accounted for. -/
theorem Inv.move (h : Inv s) (hpc : s'.pc = update s.pc t p)
    (hg : s.globalEpoch ≤ s'.globalEpoch) (he : s.ended ⊆ s'.ended)
    (hp : Stands s'.globalEpoch s'.ended t p)
    (hi : ∀ x ∈ s'.increments, x ∈ s'.ended) : Inv s' := by
  refine ⟨?_,hi⟩
  rw [hpc]
  apply (forall_update_iff s.pc (fun u q => Stands s'.globalEpoch s'.ended u q)).mpr
  exact ⟨hp,fun u _ => (h.stands u).mono hg he⟩

theorem Inv.goto (h : Inv s) (hp : Stands s.globalEpoch s.ended t p) : Inv (s.goto t p) :=
  h.move rfl (Nat.le_refl _) (fun _ hx => hx) hp h.ended

/-- No epoch CAS of a `sync(c)` call fails by finding the epoch at exactly `c+1`. -/
def undisturbed (s : State) : Act → Bool
  | .step t =>
    match s.pc t with
    | .epochCas c e => s.globalEpoch == e || s.globalEpoch != c + 1
    | _ => true
  | _ => true

theorem increment_inv (h : Inv s) (hp : (t,s.globalEpoch) ∈ s.ended)
    (hq : Stands (s.globalEpoch + 1) s.ended t q) :
    Inv { s.goto t q with
      globalEpoch := s.globalEpoch + 1, increments := (t,s.globalEpoch) :: s.increments } := by
  refine h.move rfl (Nat.le_succ _) (fun _ hx => hx) hq ?_
  intro x hx
  rcases mem_cons.mp hx with rfl | hx
  · exact hp
  · exact h.ended x hx

theorem ended_inv (h : Inv s) (hq : Stands s.globalEpoch ((t,e) :: s.ended) t q) :
    Inv { s.goto t q with ended := (t,e) :: s.ended } :=
  h.move rfl (Nat.le_refl _) (fun _ hx => mem_cons_of_mem _ hx) hq
    (fun x hx => mem_cons_of_mem _ (h.ended x hx))

theorem step_thread_inv (h : Inv s) (hu : undisturbed s (.step t))
    (hs : stepThread s t = some s') : Inv s' := by
  have ht := h.stands t
  cases hpc : s.pc t with
  | idle | returned => simp [stepThread,hpc] at hs
  | loadTarget | advBegin =>
    simp only [stepThread,hpc,some.injEq] at hs
    exact hs ▸ h.goto trivial
  | raiseTarget =>
    simp only [stepThread,hpc] at hs
    split at hs
    · split at hs
      all_goals cases hs
      · exact h.move rfl (Nat.le_refl _) (fun _ hx => hx) trivial h.ended
      · exact h.goto trivial
    · cases hs
      exact h.goto trivial
  | getEpoch =>
    simp only [stepThread,hpc,some.injEq] at hs
    exact hs ▸ h.goto id
  | onEpochEnd =>
    simp only [hpc,Stands] at ht
    simp only [stepThread,hpc] at hs
    split at hs
    all_goals cases hs
    · exact ended_inv h (by simp [Stands])
    · exact h.goto (ht (by omega))
  | epochCas c e =>
    simp only [hpc,Stands] at ht
    simp only [stepThread,hpc] at hs
    split at hs
    · rename_i he
      cases hs
      subst e
      exact increment_inv h ht (Nat.le_refl _)
    · rename_i he
      cases hs
      -- The one place where `sync` can run past an epoch: the failed CAS found `c+1`.
      simp only [undisturbed,hpc,Bool.or_eq_true,beq_iff_eq,he,false_or,bne_iff_ne] at hu
      exact h.goto (fun hc => by omega)
  | onEpochBegin =>
    simp only [hpc,Stands] at ht
    simp only [stepThread,hpc,some.injEq] at hs
    exact hs ▸ h.goto (fun hc => Nat.le_trans hc ht)
  | advTarget =>
    simp only [stepThread,hpc,some.injEq] at hs
    exact hs ▸ h.move rfl (Nat.le_refl _) (fun _ hx => hx) trivial h.ended
  | advEnd =>
    simp only [stepThread,hpc,some.injEq] at hs
    exact hs ▸ ended_inv h (by simp [Stands])
  | advCas e =>
    simp only [hpc,Stands] at ht
    simp only [stepThread,hpc] at hs
    split at hs
    · rename_i he
      cases hs
      subst e
      exact increment_inv h ht trivial
    · cases hs
      exact h.goto trivial

theorem step_inv (h : Inv s) (hu : undisturbed s a) (hs : step s a = some s') : Inv s' := by
  cases a with
  | step => exact step_thread_inv h hu hs
  | sync t c | advancer t =>
    simp only [step] at hs
    split at hs
    · cases hs
      exact h.goto trivial
    · contradiction

/-- The promise of `sync`: whenever a call for epoch `c` has returned, the epoch is at
least `c+2`, and whoever made an increment had finished `on_epoch_end` for it. -/
def Waits (s : State) : Prop :=
  (∀ t c, s.pc t = .returned c → c + 2 ≤ s.globalEpoch) ∧
    ∀ t x, (t,x) ∈ s.increments → (t,x) ∈ s.ended

theorem Inv.waits (h : Inv s) : Waits s := by
  refine ⟨?_,fun t x hx => h.ended _ hx⟩
  intro t c hpc
  simpa only [hpc,Stands] using h.stands t

/-- In every run in which no `sync(c)` call loses its CAS to the increment that ends
epoch `c`, each call that has returned really waited, however the threads interleave. -/
theorem sync_waits (g : Nat)
    (run : Run step (fun s a => undisturbed s a) (init g) ms s) : Waits s :=
  (run.invariant Inv (init_inv g) (fun _ _ _ h hu hs => step_inv h hu hs)).waits

/-- The advancer ends epoch 3 after the caller has raised the target and before it reads the epoch;
the caller ends epoch 4 and returns. -/
theorem sync_waits_joined : ∃ ms s,
    Run step (fun s a => undisturbed s a) (init initEpoch) ms s ∧
      s.increments = [(1,4),(0,3)] ∧ s.pc 1 = .returned 3 ∧ Waits s := by
  obtain ⟨ms,s,run,hs⟩ := Run.play step undisturbed
    (fun s => s.increments == [(1,4),(0,3)] && s.pc 1 == .returned 3) (init initEpoch)
    (.sync 1 3 :: replicate 2 (.step 1) ++ .advancer 0 :: replicate 3 (.step 0) ++
      replicate 5 (.step 1)) (by decide)
  simp only [Bool.and_eq_true,beq_iff_eq] at hs
  exact ⟨ms,s,run,hs.1,hs.2,sync_waits initEpoch run⟩

/-- The advancer ends epoch 3 between the caller's `on_epoch_end(3)` and its CAS: the
CAS leaves 4 in `curr_epoch`, the loop makes it 5, and `sync(3)` returns in epoch 4. -/
theorem sync_overtaken : ∃ ms s, Run step (fun _ _ => True) (init initEpoch) ms s ∧ ¬ Waits s := by
  obtain ⟨ms,s,run,hs⟩ := Run.play step (fun _ _ => true)
    (fun s => s.pc 1 == .returned 3 && s.globalEpoch == 4) (init initEpoch)
    (.sync 1 3 :: replicate 4 (.step 1) ++
      .advancer 0 :: replicate 3 (.step 0) ++ replicate 2 (.step 1)) (by decide)
  simp only [Bool.and_eq_true,beq_iff_eq] at hs
  refine ⟨ms,s,run.weaken (fun _ _ _ => trivial),?_⟩
  intro h
  have := h.1 1 3 hs.1
  omega

/-- The condition is exact: once a CAS of `sync(c)` has failed on `c+1`, the caller's
next step returns, and no epoch has passed in between. -/
theorem disturbed_returns_early (hpc : s.pc t = .epochCas c e) (he : s.globalEpoch ≠ e)
    (hg : s.globalEpoch = c + 1) : ∃ s₁ s₂, step s (.step t) = some s₁ ∧
      step s₁ (.step t) = some s₂ ∧ s₂.pc t = .returned c ∧ s₂.globalEpoch = c + 1 := by
  refine ⟨s.goto t (.onEpochEnd c (s.globalEpoch + 1)),
    (s.goto t (.onEpochEnd c (s.globalEpoch + 1))).goto t (.returned c),?_,?_,?_,?_⟩
  · simp [step,stepThread,hpc,he]
  · simp [step,stepThread,State.goto,hg]
  · simp [State.goto]
  · exact hg

def calls (t : Tid) : Act → Bool
  | .sync u _ | .advancer u => u == t
  | .step _ => false

/-- A thread in a call of `sync(c)` that began in epoch `b` or later. A CAS that fails
after the call has read the epoch was overtaken, so epoch `b` is over then. -/
def Floor (b c g : Nat) : Pc → Prop
  | .loadTarget c' | .raiseTarget c' _ | .getEpoch c' => c' = c
  | .onEpochEnd c' e | .epochCas c' e => c' = c ∧ b ≤ e ∧ (e ≤ g ∨ b < g)
  | .onEpochBegin c' e => c' = c ∧ b ≤ e ∧ b < g
  | .returned c' => c' = c ∧ (c + 2 ≤ g ∨ b < g)
  | _ => False

theorem step_thread_floor (hs : stepThread s u = some s') (hb : b ≤ s.globalEpoch) :
    ∃ p, s'.pc = update s.pc u p ∧ s.globalEpoch ≤ s'.globalEpoch ∧
      (Floor b c s.globalEpoch (s.pc u) → Floor b c s'.globalEpoch p) := by
  cases hpc : s.pc u <;> simp only [stepThread,hpc] at hs
  all_goals try split at hs
  all_goals try split at hs
  all_goals cases hs
  all_goals exact ⟨_,rfl,by grind [State.goto],by grind [State.goto,Floor]⟩

theorem step_floor (h : b ≤ s.globalEpoch ∧ Floor b c s.globalEpoch (s.pc t))
    (ha : !calls t a) (hs : step s a = some s') :
    b ≤ s'.globalEpoch ∧ Floor b c s'.globalEpoch (s'.pc t) := by
  obtain ⟨hb,h⟩ := h
  have hkeep : s'.pc t = s.pc t → s.globalEpoch ≤ s'.globalEpoch →
      Floor b c s'.globalEpoch (s'.pc t) := by
    intro hpc hg
    rw [hpc]
    cases hp : s.pc t <;> grind [Floor]
  cases a with
  | step u =>
    obtain ⟨p,hpc,hg,hp⟩ := step_thread_floor (c := c) hs hb
    refine ⟨Nat.le_trans hb hg,?_⟩
    by_cases hu : t = u
    · subst hu
      simpa [hpc] using hp h
    · exact hkeep (by rw [hpc,update_of_ne hu]) hg
  | sync u | advancer u =>
    have hu : t ≠ u := by
      rintro rfl
      simp [calls] at ha
    simp only [step] at hs
    split at hs <;> cases hs
    exact ⟨hb,hkeep (by simp [State.goto,hu]) (Nat.le_refl _)⟩

/-- A call that began in epoch `b` or later has seen the end of it, or has waited. -/
theorem sync_passes (hb : b ≤ s.globalEpoch) (hs : step s (.sync t c) = some s₁)
    (run : Run step (fun _ a => !calls t a) s₁ ms s₂) (hd : canCall (s₂.pc t)) :
    c + 2 ≤ s₂.globalEpoch ∨ b < s₂.globalEpoch := by
  simp only [step] at hs
  split at hs <;> cases hs
  have h := run.invariant (fun s => b ≤ s.globalEpoch ∧ Floor b c s.globalEpoch (s.pc t))
    ⟨hb,by simp [State.goto,Floor]⟩ (fun _ _ _ h ha hs => step_floor h ha hs)
  cases hp : s₂.pc t <;> grind [Floor,canCall]

/-- `flush` waits although `sync` may not: from every state and however the threads
interleave, the second of two calls in a row for `c` does not return before epoch `c+2`. -/
theorem flush_waits (hc : c ≤ s.globalEpoch) (hcc : c ≤ c') (h₁ : step s (.sync t c) = some s₁)
    (run₁ : Run step (fun _ a => !calls t a) s₁ ms₁ s₂) (h₂ : step s₂ (.sync t c') = some s₃)
    (run₂ : Run step (fun _ a => !calls t a) s₃ ms₂ s₄) (hd : s₄.pc t = .returned c') :
    c + 2 ≤ s₄.globalEpoch := by
  have hfirst : c < s₂.globalEpoch := by
    have hd1 : canCall (s₂.pc t) := by
      by_contra hn
      simp [step,hn] at h₂
    have := sync_passes hc h₁ run₁ hd1
    omega
  have := sync_passes hfirst h₂ run₂ (by rw [hd]; rfl)
  omega

/-- Thread 1 calls `flush` in epoch 3. The advancer overtakes its first call of `sync`, which returns
in epoch 4; the second one waits for epoch 5. -/
theorem flush_waits_overtaken : ∃ s₁ ms₁ s₂ s₃ ms₂ s₄, step (init 3) (.sync 1 3) = some s₁ ∧
    Run step (fun _ a => !calls 1 a) s₁ ms₁ s₂ ∧
    ms₁.map Move.act = replicate 4 (.step 1) ++ .advancer 0 :: replicate 3 (.step 0) ++
      replicate 2 (.step 1) ∧ s₂.pc 1 = .returned 3 ∧ s₂.globalEpoch = 4 ∧
    step s₂ (.sync 1 3) = some s₃ ∧ Run step (fun _ a => !calls 1 a) s₃ ms₂ s₄ ∧
    ms₂.map Move.act = replicate 7 (.step 1) ∧ s₄.pc 1 = .returned 3 ∧ 3 + 2 ≤ s₄.globalEpoch := by
  obtain ⟨s₂,hplay1,h⟩ : ∃ s₂, play step ((init 3).goto 1 (.loadTarget 3)) (replicate 4 (.step 1) ++
      .advancer 0 :: replicate 3 (.step 0) ++ replicate 2 (.step 1)) = some s₂ ∧
      decide (s₂.pc 1 = .returned 3 ∧ s₂.globalEpoch = 4 ∧ ∃ s₄,
        play step (s₂.goto 1 (.loadTarget 3)) (replicate 7 (.step 1)) = some s₄ ∧
          s₄.pc 1 = .returned 3) = true := map_eq_some_iff.mp (by decide)
  obtain ⟨hd,hg,s₄,hplay2,hd2⟩ := of_decide_eq_true h
  obtain ⟨ms₁,run₁,hacts1⟩ := Run.performed (fun _ a => !calls 1 a) hplay1 (by simp [calls])
  obtain ⟨ms₂,run₂,hacts2⟩ := Run.performed (fun _ a => !calls 1 a) hplay2 (by simp [calls])
  have hcall : step s₂ (.sync 1 3) = some (s₂.goto 1 (.loadTarget 3)) := by
    simp [step,hd,canCall]
  exact ⟨_,ms₁,s₂,_,ms₂,s₄,rfl,run₁,hacts1,hd,hg,hcall,run₂,hacts2,hd2,
    flush_waits (s := init 3) (Nat.le_refl 3) (Nat.le_refl 3) rfl run₁ hcall run₂ hd2⟩

end Montage.Advancer
