import Montage.MontageHashTable.Map

namespace Montage.MontageHashTable
open Library Library.Maps Recoverable Function List Option
open Recoverable.Memory hiding call
open ToBeFreed (Kind)

variable {K V : Type} [LinearOrder K]

/-- A call that has taken effect, in an operation of epoch `epoch`. -/
structure Done (K V : Type) where
  call : Call K V
  ret : Result V
  epoch : Nat

def done (m : Move (State K V) (Act K V)) : Option (Done K V) :=
  match m.act with
  | .finish t _ =>
    match m.pre.pc t, m.post.pc t with
    | .inside call _ c, .idle (some ret) => some ⟨call,ret,c⟩
    | _, _ => none
  | _ => none

/-- The calls of a run in the order in which they took effect. -/
def history (ms : List (Move (State K V) (Act K V))) : List (Done K V) := ms.filterMap done

/-- The calls that a crash leaves when `e` is the last durable epoch. -/
def retained (e : Nat) (ds : List (Done K V)) : List (Done K V) := ds.filter fun d => d.epoch ≤ e

/-- The value that a key of a map has after some calls. -/
def valueAfter (ds : List (Done K V)) (key : K) : Option V :=
  ds.foldl (fun v d => if d.call.key = key then (d.call.effect v).1 else v) none

/-- Every call has the result that it has on a map. -/
def Legal (ds : List (Done K V)) : Prop :=
  ∀ past d, past ++ [d] <+: ds → (d.call.effect (valueAfter past d.call.key)).2 = d.ret

theorem value_after_snoc (ds : List (Done K V)) (d : Done K V) (key : K) :
    valueAfter (ds ++ [d]) key = if d.call.key = key then (d.call.effect (valueAfter ds key)).1
      else valueAfter ds key := by
  simp [valueAfter]

theorem legal_snoc (ds : List (Done K V)) (d : Done K V) : Legal (ds ++ [d]) ↔
    Legal ds ∧ (d.call.effect (valueAfter ds d.call.key)).2 = d.ret := by
  simp only [Legal,prefix_concat_iff,append_singleton_inj]
  grind

omit [LinearOrder K] in
theorem retained_snoc (e : Nat) (ds : List (Done K V)) (d : Done K V) :
    retained e (ds ++ [d]) = if d.epoch ≤ e then retained e ds ++ [d] else retained e ds := by
  grind [retained]

/-- Calls on other keys do not matter. -/
theorem value_after_retained {e : Nat} {ds : List (Done K V)} {key : K}
    (h : ∀ d ∈ ds, d.call.key = key → d.epoch ≤ e) :
    valueAfter (retained e ds) key = valueAfter ds key := by
  induction ds using reverseRecOn with
  | nil => rfl
  | append_singleton ds d ih =>
    have ih := ih fun d' hd' => h d' (mem_append_left _ hd')
    rw [retained_snoc,value_after_snoc]
    grind [value_after_snoc]

/-- What a step does, when the invariant holds. -/
inductive Becomes (hash : K → Nat) (idxSize : Nat) (s : State K V) : Act K V → State K V → Prop
  | invoke (idle : s.pc t = .idle last) (epoch : s'.epoch = s.epoch)
      (pc : s'.pc = update s.pc t (.called op newNode))
      (node : newNode = none ∧ s'.mem = s.mem ∧ s'.content = s.content ∨
        ∃ a v, newNode = some a ∧ a ∉ s.mem.allocated ∧ Makes s.mem a s'.mem ∧
          Unregistered s'.mem a ∧ s'.content = update s.content a v) :
      Becomes hash idxSize s (.invoke t op al) s'
  | enter (called : s.pc t = .called op newNode) (unused : Unused s.mem i)
      (registers : Registers s.mem newNode.toList s.epoch i s'.mem)
      (content : s'.content = s.content) (epoch : s'.epoch = s.epoch)
      (pc : s'.pc = update s.pc t (.inside op newNode s.epoch)) :
      Becomes hash idxSize s (.enter t i) s'
  | finish (inside : s.pc t = .inside op newNode c)
      (body : Section.body al (s.opened hash idxSize t op) op newNode = .ok (w,ret))
      (performs : Performs hash idxSize (hash op.key % idxSize) c op newNode
        (s.opened hash idxSize t op) w ret)
      (mem : s'.mem = w.mem) (content : s'.content = w.content)
      (bucket : s'.buckets (hash op.key % idxSize) = w.bucket)
      (epoch : s'.epoch = s.epoch) (pc : s'.pc = update s.pc t (.idle (some ret))) :
      Becomes hash idxSize s (.finish t al) s'
  | advance : Becomes hash idxSize s .advance { s with epoch := s.epoch + 1 }
  | drain (waiting : b ∈ s.mem.waiting) :
      Becomes hash idxSize s (.drain b c) { s with mem := s.mem.drain b c }

section
variable {hash : K → Nat} {idxSize : Nat} {k : Kind} {s s' : State K V} {t : Nat}
  {call : Call K V} {newNode : Option Addr} {al : Allocator} {act : Act K V} {ds : List (Done K V)}

section
variable (hi : Inv hash idxSize s)
include hi

theorem invoke_becomes (hpc : s.pc t = .idle last) (h : s.invoke k al t call = .ok s') :
    Becomes hash idxSize s (.invoke t call al) s' := by
  have hnew : ∀ key val, (do
      let x ← s.newNode k al t key val
      return x.1.goto t (.called call (some x.2))) = .ok s' →
      Becomes hash idxSize s (.invoke t call al) s' := by
    intro key val h
    obtain ⟨⟨s1,a⟩,hnode,h⟩ := of_bind_ok h
    obtain ⟨⟨m,th⟩,hcall,hnode⟩ := of_bind_ok hnode
    cases hnode
    cases h
    have hepoch := hi.threads t
    rw [hpc] at hepoch
    have ha := al.fresh_not_mem s.mem.allocated
    obtain ⟨m',hok,hmakes,hnew⟩ := pnew_outside (k := k) hi.tidy hepoch.1 ha
    cases hcall.symm.trans hok
    exact .invoke hpc rfl rfl (.inr ⟨_,_,rfl,ha,hmakes,hnew,rfl⟩)
  cases call with
  | get | remove => cases h; exact .invoke hpc rfl rfl (.inl ⟨rfl,rfl,rfl⟩)
  | put key val | insert key val => exact hnew key val h

theorem finish_becomes (hpc : s.pc t = .inside call newNode c)
    (h : s.finish hash idxSize k al t call newNode = .ok s') :
    Becomes hash idxSize s (.finish t al) s' := by
  obtain ⟨w,ret,hbody,hperforms⟩ := body_ok hi al hpc
  have hopened := hbody
  rw [State.opened] at hopened
  have hthread : w.thread = s.thread t := hperforms.thread
  have hth := hi.threads t
  rw [hpc,← hthread] at hth
  obtain ⟨-,-,hretires,hepoch,-⟩ := hth
  cases call with
  | get =>
    simp only [State.finish,hopened,bind,Except.bind,pure,Except.pure] at h
    cases h
    exact .finish hpc hbody hperforms rfl rfl (update_self ..) rfl rfl
  | put | insert | remove =>
    simp only [State.finish,hopened,end_op (k := k) (m := w.mem) hepoch hretires,bind,Except.bind,
      pure,Except.pure] at h
    cases h
    exact .finish hpc hbody hperforms rfl rfl (update_self ..) rfl rfl

theorem step_becomes (h : step k hash idxSize s act = some s') : Becomes hash idxSize s act s' := by
  unfold step at h
  split at h
  next t call al =>
    split at h
    next hpc =>
      obtain ⟨s1,hok,-⟩ := hi.invoke k al call hpc
      rw [hok] at h
      cases h
      exact invoke_becomes hi hpc hok
    next => cases h
  next t id =>
    split at h
    next hpc =>
      split at h
      next hguard =>
        obtain ⟨m',th',hok,hr,-⟩ := enter_ok hi k id hpc
        rw [hok] at h
        cases h
        exact .enter hpc hguard.1 hr rfl rfl rfl
      next => cases h
    next => cases h
  next t al =>
    split at h
    next hpc =>
      obtain ⟨s1,ret,hok,-⟩ := hi.finish k al hpc
      rw [hok] at h
      cases h
      exact finish_becomes hi hpc hok
    next => cases h
  next =>
    split at h <;> cases h
    exact .advance
  next b c =>
    split at h
    next hguard => cases h; exact .drain hguard.2
    next => cases h

/-- A thread that is inside after a step was inside before it, or has just entered. -/
theorem step_inside (h : step k hash idxSize s act = some s') :
    s.epoch ≤ s'.epoch ∧ ∀ u call newNode c, s'.pc u = .inside call newNode c →
      s.pc u = .inside call newNode c ∨ c = s.epoch := by
  cases step_becomes hi h with
  | invoke _ hepoch hpc | enter _ _ _ _ hepoch hpc | finish _ _ _ _ _ _ hepoch hpc =>
    refine ⟨hepoch.ge,fun u call newNode c hu => ?_⟩
    have := congrFun hpc u
    grind [update_apply]
  | advance => exact ⟨Nat.le_succ _,fun _ _ _ _ hu => .inl hu⟩
  | drain => exact ⟨le_rfl,fun _ _ _ _ hu => .inl hu⟩

end

/-- What the past of a run has to do with its state. -/
structure Recalls (hash : K → Nat) (idxSize : Nat) (ds : List (Done K V)) (s : State K V) : Prop where
  contents : contents hash idxSize s = valueAfter ds
  legal : Legal ds
  epochs : ∀ d ∈ ds, d.epoch ≤ s.epoch
  under : ∀ t call newNode c, s.pc t = .inside call newNode c → ∀ d ∈ ds,
    hash d.call.key % idxSize = hash call.key % idxSize → d.epoch ≤ c
  ordered : ds.Pairwise fun d d' =>
    hash d.call.key % idxSize = hash d'.call.key % idxSize → d.epoch ≤ d'.epoch

theorem Recalls.step (hi : Inv hash idxSize s) (hr : Recalls hash idxSize ds s)
    (h : step k hash idxSize s act = some s') :
    Recalls hash idxSize (ds ++ (done ⟨s,act,s'⟩).toList) s' := by
  obtain ⟨hepoch,hinside⟩ := step_inside hi h
  have hunder : ∀ u call newNode c, s'.pc u = .inside call newNode c → ∀ d ∈ ds,
      hash d.call.key % idxSize = hash call.key % idxSize → d.epoch ≤ c := by
    intro u call' n c hu d hd hsame
    rcases hinside u call' n c hu with hu | rfl
    · exact hr.under u call' n c hu d hd hsame
    · exact hr.epochs d hd
  have hrefines := (step_sound hi h).2
  have hquiet : done ⟨s,act,s'⟩ = none → MontageHashTable.contents hash idxSize s' =
      MontageHashTable.contents hash idxSize s →
      Recalls hash idxSize (ds ++ (done ⟨s,act,s'⟩).toList) s' := by
    intro hnone hcontents
    rw [hnone,toList_none,append_nil]
    exact ⟨hcontents.trans hr.contents,hr.legal,fun d hd => (hr.epochs d hd).trans hepoch,hunder,
      hr.ordered⟩
  cases act with
  | finish t al =>
    obtain ⟨call,newNode,c,ret,(hin : s.pc t = _),(hout : s'.pc t = _),hmine,hothers⟩ := hrefines
    have hdone : (done ⟨s,.finish t al,s'⟩).toList = [⟨call,ret,c⟩] := by
      simp [done,hin,hout]
    rw [hdone]
    rw [hr.contents] at hmine hothers
    have hle : c ≤ s.epoch := by
      have h := hi.threads t
      rw [hin] at h
      exact h.2.1
    refine ⟨?_,(legal_snoc ..).mpr ⟨hr.legal,congrArg Prod.snd hmine⟩,?_,?_,?_⟩
    · funext key
      rw [value_after_snoc]
      split
      next he => exact he ▸ (congrArg Prod.fst hmine).symm
      next hne => exact hothers key (Ne.symm hne)
    · have := hr.epochs
      grind
    · intro u call' n c' hu d hd hsame
      have := hunder u call' n c' hu d
      have := hinside u call' n c' hu
      -- two threads inside would hold the lock of the bucket
      have hmine := (hi.locks _ t).mpr ⟨call,newNode,c,hin,rfl⟩
      have hyours := hi.locks (hash call'.key % idxSize) u
      grind
    · have := hr.under t call newNode c hin
      grind [hr.ordered]
  | _ => exact hquiet rfl hrefines

theorem init_recalls (hash : K → Nat) (idxSize : Nat) (content : Addr → Payload K V) :
    Recalls hash idxSize [] (init content) where
  contents := rfl
  legal := by simp [Legal]
  epochs := fun _ h => absurd h not_mem_nil
  under := fun _ _ _ _ _ _ h => absurd h not_mem_nil
  ordered := .nil

omit [LinearOrder K] in
theorem history_snoc (ms : List (Move (State K V) (Act K V))) (m : Move (State K V) (Act K V)) :
    history (ms ++ [m]) = history ms ++ (done m).toList := by
  rw [history,filterMap_append]
  cases hm : done m <;> simp [history,hm]

theorem run_recalls {ok : State K V → Act K V → Prop} {content : Addr → Payload K V}
    {ms : List (Move (State K V) (Act K V))}
    (run : Run (step k hash idxSize) ok (init content) ms s) :
    Inv hash idxSize s ∧ Recalls hash idxSize (history ms) s := by
  induction run with
  | nil => exact ⟨init_inv hash idxSize content,init_recalls hash idxSize content⟩
  | snoc _ _ next ih =>
    rw [history_snoc]
    exact ⟨(step_sound ih.1 next).1,ih.2.step ih.1 next⟩

/-- A call that is lost has had no influence on the result of one that is kept. -/
theorem Legal.retained (hl : Legal ds) (ho : ds.Pairwise fun d d' =>
    hash d.call.key % idxSize = hash d'.call.key % idxSize → d.epoch ≤ d'.epoch) (e : Nat) :
    Legal (retained e ds) := by
  induction ds using reverseRecOn with
  | nil => exact hl
  | append_singleton ds d ih =>
    obtain ⟨hpast,hd⟩ := (legal_snoc ..).mp hl
    obtain ⟨ho,-,hlast⟩ := pairwise_append.mp ho
    rw [retained_snoc]
    split
    next he =>
      refine (legal_snoc ..).mpr ⟨ih hpast ho,?_⟩
      rw [value_after_retained fun d' hd' hk => (hlast d' hd' d (by simp) (by rw [hk])).trans he]
      exact hd
    next => exact ih hpast ho

/-- A thread that was idle makes its next calls in later epochs. -/
theorem later_epoch {ok : State K V → Act K V → Prop} {mid : State K V}
    {ms : List (Move (State K V) (Act K V))} (hi : Inv hash idxSize mid)
    (hidle : mid.pc t = .idle last) (run : Run (step k hash idxSize) ok mid ms s)
    {m : Move (State K V) (Act K V)} (hm : m ∈ ms) (hact : m.act = .finish t al) {d : Done K V}
    (hd : done m = some d) : mid.epoch ≤ d.epoch := by
  obtain ⟨⟨-,-,hinside⟩,-⟩ := run.each (fun s => Inv hash idxSize s ∧ mid.epoch ≤ s.epoch ∧
    ∀ call newNode c, s.pc t = .inside call newNode c → mid.epoch ≤ c)
    ⟨hi,le_rfl,by simp [hidle]⟩ (by
      intro s act s' hJ _ hstep
      obtain ⟨hi,hle,hinside⟩ := hJ
      obtain ⟨hepoch,hback⟩ := step_inside hi hstep
      refine ⟨(step_sound hi hstep).1,hle.trans hepoch,fun call newNode c hu => ?_⟩
      grind [hback t call newNode c hu]) m hm
  simp only [done,hact] at hd
  split at hd <;> cases hd
  next hin _ => exact hinside _ _ _ hin

/-- The calls that survive a crash, those of the epochs up to `e`, are a history of a map of
their own, and with a call all calls survive that had returned before it was made. -/
theorem retained_calls (k : Kind) (hash : K → Nat) (idxSize : Nat) (content : Addr → Payload K V)
    {ms : List (Move (State K V) (Act K V))}
    (run : Run (step k hash idxSize) (fun _ _ => True) (init content) ms s) (e : Nat) :
    Legal (retained e (history ms)) ∧
      ∀ ms₁ ms₂ mid, Run (step k hash idxSize) (fun _ _ => True) (init content) ms₁ mid →
        Run (step k hash idxSize) (fun _ _ => True) mid ms₂ s → ms = ms₁ ++ ms₂ →
        ∀ t last, mid.pc t = .idle last → ∀ m ∈ ms₂, ∀ al, m.act = .finish t al →
          ∀ d, done m = some d → d.epoch ≤ e → ∀ d' ∈ history ms₁, d'.epoch ≤ e := by
  have hr := (run_recalls run).2
  refine ⟨hr.legal.retained hr.ordered e,?_⟩
  intro ms₁ ms₂ mid run1 run2 _ t last hidle m hm al hact d hd hle d' hd'
  obtain ⟨hi,hr⟩ := run_recalls run1
  exact (hr.epochs d' hd').trans ((later_epoch hi hidle run2 hm hact hd).trans hle)

theorem retained_calls_story : ∃ ms s,
    Run (step .blocking id 2) (fun _ _ => True) (init fun _ => ⟨0,0⟩) ms s ∧
      ms.map (·.act) = story ∧ (retained 3 (history ms)).map (·.call) = [.put 3 7] ∧
      Legal (retained 3 (history ms)) := by
  obtain ⟨s,hplay⟩ := isSome_iff_exists.mp
    (show (play (step .blocking id 2) (init fun _ => ⟨0,0⟩) story).isSome = true by decide +kernel)
  have run := Run.nil.trace hplay
  exact ⟨_,s,run,trace_acts hplay,by decide +kernel,(retained_calls .blocking id 2 _ run 3).1⟩

end

end Montage.MontageHashTable
