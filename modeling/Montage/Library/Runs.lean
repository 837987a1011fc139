import Mathlib.Data.List.Basic

namespace Montage.Library
open List

/-- One move of a machine: the states around it and the label it took. -/
structure Move (σ α : Type) where
  pre : σ
  act : α
  post : σ

/-- Finite runs of a partial machine, every move of which was permitted by `ok`
in the state it was taken from. The moves are kept in the order they were made. -/
inductive Run (step : σ → α → Option σ) (ok : σ → α → Prop) (start : σ) :
    List (Move σ α) → σ → Prop
  | nil : Run step ok start [] start
  | snoc (run : Run step ok start ms s) (permitted : ok s a) (next : step s a = some s') :
      Run step ok start (ms ++ [⟨s,a,s'⟩]) s'

/-- Plays a list of labels, checks each one before it is taken and the state they lead
to: an executable way to exhibit a run. -/
def follows (step : σ → α → Option σ) (ok : σ → α → Bool) (good : σ → Bool) (s : σ) :
    List α → Bool
  | [] => good s
  | a :: as =>
    ok s a && match step s a with
      | none => false
      | some s' => follows step ok good s' as

def play (step : σ → α → Option σ) (s : σ) : List α → Option σ
  | [] => some s
  | a :: as => (step s a).bind fun s' => play step s' as

def trace (step : σ → α → Option σ) (s : σ) : List α → List (Move σ α)
  | [] => []
  | a :: as =>
    match step s a with
    | none => []
    | some s' => ⟨s,a,s'⟩ :: trace step s' as

/-- At some moment of a run since the last of its `calls`, the state was in `P`. -/
def Since (ms : List (Move σ α)) (calls : α → Prop) (P : σ → Prop) : Prop :=
  ∃ past m later, ms = past ++ m :: later ∧ P m.pre ∧ ∀ m' ∈ m :: later, ¬calls m'.act

variable {σ α : Type} {step : σ → α → Option σ} {ok : σ → α → Prop} {start s : σ}
  {ms : List (Move σ α)}

theorem Since.snoc {calls : α → Prop} {P : σ → Prop} {m : Move σ α} (h : Since ms calls P)
    (hm : ¬calls m.act) : Since (ms ++ [m]) calls P := by
  obtain ⟨past,m0,later,rfl,hP,hlater⟩ := h
  refine ⟨past,m0,later ++ [m],by simp,hP,?_⟩
  intro m' hm'
  rcases mem_append.mp (show m' ∈ (m0 :: later) ++ [m] from hm') with hm' | hm'
  · exact hlater m' hm'
  · cases mem_singleton.mp hm'
    exact hm

theorem Since.now {calls : α → Prop} {P : σ → Prop} {m : Move σ α} (hP : P m.pre)
    (hm : ¬calls m.act) : Since (ms ++ [m]) calls P := by
  refine ⟨ms,m,[],rfl,hP,?_⟩
  intro m' hm'
  cases mem_singleton.mp hm'
  exact hm

theorem play_append (as bs : List α) :
    play step s (as ++ bs) = (play step s as).bind fun t => play step t bs := by
  induction as generalizing s with
  | nil => rfl
  | cons a _ ih =>
    cases hs : step s a with
    | none => simp [play,hs]
    | some => simp [play,hs,ih]

theorem play_invariant {t : σ} {as : List α} (h : play step s as = some t) (I : σ → Prop)
    (init : I s) (keep : ∀ s a s', I s → step s a = some s' → I s') : I t := by
  induction as generalizing s with
  | nil => cases h; exact init
  | cons _ _ ih =>
    obtain ⟨s',hs,ht⟩ := Option.bind_eq_some_iff.mp h
    exact ih ht (keep _ _ _ init hs)

theorem Run.extend {okb : σ → α → Bool} {good : σ → Bool} {as : List α}
    (run : Run step (fun s a => okb s a) start ms s) (h : follows step okb good s as = true) :
    ∃ ms' t, Run step (fun s a => okb s a) start (ms ++ ms') t ∧ good t = true := by
  induction as generalizing ms s with
  | nil => exact ⟨[],s,by simpa using run,h⟩
  | cons a _ ih =>
    simp only [follows,Bool.and_eq_true] at h
    obtain ⟨hok,h⟩ := h
    cases hs : step s a with
    | none => simp [hs] at h
    | some s' =>
      simp only [hs] at h
      obtain ⟨ms',t,hr,hg⟩ := ih (run.snoc hok hs) h
      exact ⟨⟨s,a,s'⟩ :: ms',t,by simpa using hr,hg⟩

theorem Run.play (step : σ → α → Option σ) (okb : σ → α → Bool) (good : σ → Bool) (start : σ)
    (as : List α) (h : follows step okb good start as = true) :
    ∃ ms t, Run step (fun s a => okb s a) start ms t ∧ good t = true := by
  obtain ⟨ms,t,hr,hg⟩ := (Run.nil : Run step (fun s a => okb s a) start [] start).extend h
  exact ⟨ms,t,by simpa using hr,hg⟩

theorem Run.visit (step : σ → α → Option σ) (okb : σ → α → Bool) (here good : σ → Bool)
    (start : σ) (as : List α) (a : α) (bs : List α)
    (h : follows step okb (fun s => here s && follows step okb good s (a :: bs)) start as = true) :
    ∃ ms m t, Run step (fun s a => okb s a) start ms t ∧ m ∈ ms ∧ m.act = a ∧
      here m.pre = true ∧ good t = true := by
  obtain ⟨ms,s,run,hs⟩ := Run.play step okb _ start as h
  obtain ⟨hhere,hrest⟩ := Bool.and_eq_true_iff.mp hs
  simp only [follows,Bool.and_eq_true] at hrest
  obtain ⟨hok,hrest⟩ := hrest
  cases hnext : step s a with
  | none => simp [hnext] at hrest
  | some s' =>
    simp only [hnext] at hrest
    obtain ⟨ms',t,hr,hg⟩ := (run.snoc hok hnext).extend hrest
    exact ⟨_,⟨s,a,s'⟩,t,hr,by simp,rfl,hhere,hg⟩

theorem Run.reach {as : List α} {t : σ} (run : Run step (fun _ _ => True) start ms s)
    (h : Library.play step s as = some t) : ∃ ms', Run step (fun _ _ => True) start ms' t := by
  induction as generalizing ms s with
  | nil => cases h; exact ⟨ms,run⟩
  | cons _ _ ih =>
    obtain ⟨s',hs,hrest⟩ := Option.bind_eq_some_iff.mp h
    exact ih (run.snoc trivial hs) hrest

theorem Run.trace {as : List α} {t : σ} (run : Run step (fun _ _ => True) start ms s)
    (h : Library.play step s as = some t) :
    Run step (fun _ _ => True) start (ms ++ Library.trace step s as) t := by
  induction as generalizing ms s with
  | nil =>
    cases h
    simpa [Library.trace] using run
  | cons _ _ ih =>
    obtain ⟨s',hs,hrest⟩ := Option.bind_eq_some_iff.mp h
    have hrun := ih (run.snoc trivial hs) hrest
    simpa [Library.trace,hs] using hrun

theorem trace_acts {as : List α} {t : σ} (h : Library.play step s as = some t) :
    (Library.trace step s as).map Move.act = as := by
  induction as generalizing s with
  | nil => rfl
  | cons _ _ ih =>
    obtain ⟨s',hs,hrest⟩ := Option.bind_eq_some_iff.mp h
    simp [Library.trace,hs,ih hrest]

theorem Run.last {m : Move σ α} (run : Run step ok start (ms ++ [m]) s) :
    Run step ok start ms m.pre ∧ ok m.pre m.act ∧ step m.pre m.act = some m.post ∧ s = m.post := by
  generalize hms : ms ++ [m] = ms' at run
  cases run with
  | nil => simp at hms
  | snoc run permitted next =>
    obtain ⟨rfl,hm⟩ := append_inj' hms rfl
    cases singleton_inj.mp hm
    exact ⟨run,permitted,next,rfl⟩

section
variable (run : Run step ok start ms s)
include run

/-- What holds initially and is kept by every permitted move holds after every run. -/
theorem Run.invariant (I : σ → Prop) (init : I start)
    (keep : ∀ s a s', I s → ok s a → step s a = some s' → I s') : I s := by
  induction run with
  | nil => exact init
  | snoc _ permitted next ih => exact keep _ _ _ ih permitted next

/-- Each recorded move is a permitted step, taken from a state where the invariant
held. -/
theorem Run.each (I : σ → Prop) (init : I start)
    (keep : ∀ s a s', I s → ok s a → step s a = some s' → I s') :
    ∀ m ∈ ms, I m.pre ∧ ok m.pre m.act ∧ step m.pre m.act = some m.post := by
  induction run with
  | nil => simp
  | snoc run permitted next ih =>
    intro m hm
    rcases mem_append.mp hm with hm | hm
    · exact ih m hm
    · cases mem_singleton.mp hm
      exact ⟨run.invariant I init keep,permitted,next⟩

/-- A fact `Q m` that a move establishes and that all later moves keep is still true
whenever a later move is made, so a relation between the earlier and the later move
may be read off there. -/
theorem Run.pairwise (I : σ → Prop) (init : I start)
    (keep : ∀ s a s', I s → ok s a → step s a = some s' → I s')
    (Q : Move σ α → σ → Prop) (R : Move σ α → Move σ α → Prop)
    (set : ∀ s a s', I s → ok s a → step s a = some s' → Q ⟨s,a,s'⟩ s')
    (stay : ∀ m s a s', I s → Q m s → ok s a → step s a = some s' → Q m s')
    (read : ∀ m s a s', I s → Q m s → ok s a → step s a = some s' → R m ⟨s,a,s'⟩) :
    ms.Pairwise R ∧ ∀ m ∈ ms, Q m s := by
  induction run with
  | nil => simp
  | snoc run permitted next ih =>
    have hI := run.invariant I init keep
    refine ⟨?_,?_⟩
    · apply pairwise_append.mpr
      refine ⟨ih.1,by simp,?_⟩
      intro m hm m' hm'
      cases mem_singleton.mp hm'
      exact read m _ _ _ hI (ih.2 m hm) permitted next
    · intro m hm
      rcases mem_append.mp hm with hm | hm
      · exact stay m _ _ _ hI (ih.2 m hm) permitted next
      · cases mem_singleton.mp hm
        exact set _ _ _ hI permitted next

/-- A run passes through a state wherever its moves are cut in two. -/
theorem Run.split {ms1 ms2 : List (Move σ α)}
    (h : ms = ms1 ++ ms2) : ∃ t, Run step ok start ms1 t ∧ Run step ok t ms2 s := by
  induction run generalizing ms2 with
  | nil =>
    obtain ⟨rfl,rfl⟩ := append_eq_nil_iff.mp h.symm
    exact ⟨_,.nil,.nil⟩
  | snoc run permitted next ih =>
    rcases eq_nil_or_concat ms2 with rfl | ⟨front,m,rfl⟩
    · rw [append_nil] at h
      exact ⟨_,h ▸ run.snoc permitted next,.nil⟩
    · rw [concat_eq_append,← append_assoc] at h
      obtain ⟨hfront,hm⟩ := append_inj' h rfl
      cases singleton_inj.mp hm
      obtain ⟨t,run1,run2⟩ := ih hfront
      exact ⟨t,run1,by rw [concat_eq_append]; exact run2.snoc permitted next⟩

theorem Run.restrict {ok' : σ → α → Prop}
    (h : ∀ m ∈ ms, ok' m.pre m.act) : Run step ok' start ms s := by
  induction run with
  | nil => exact .nil
  | snoc _ _ next ih =>
    exact (ih fun m hm => h m (mem_append_left _ hm)).snoc
      (h _ (mem_append_right _ (mem_singleton_self _))) next

/-- Good states after every move, and permitted moves only, come to the same if a permitted move
leads from the invariant to a good state and the invariant, and any other to a bad state. -/
theorem Run.good_iff (I good : σ → Prop) (fine : σ → α → Prop) (init : I start)
    (keep : ∀ s a s', I s → fine s a → step s a = some s' → I s' ∧ good s')
    (breaks : ∀ s a s', I s → ¬fine s a → step s a = some s' → ¬good s') :
    (∀ m ∈ ms, good m.post) ↔ ∀ m ∈ ms, fine m.pre m.act := by
  have hkeep : ∀ s a s', I s → fine s a → step s a = some s' → I s' :=
    fun s a s' h hfine hs => (keep s a s' h hfine hs).1
  constructor
  · intro hgood
    induction run with
    | nil => simp
    | snoc run _ next ih =>
      have hfine := ih fun m hm => hgood m (mem_append_left _ hm)
      have hI := (run.restrict hfine).invariant I init hkeep
      intro m hmem
      rcases mem_append.mp hmem with hm | hm
      · exact hfine m hm
      · cases mem_singleton.mp hm
        by_contra hbad
        exact breaks _ _ _ hI hbad next (hgood _ hmem)
  · intro hfine m hm
    obtain ⟨hI,hok,hs⟩ := (run.restrict hfine).each I init hkeep m hm
    exact (keep _ _ _ hI hok hs).2

theorem Run.weaken {ok' : σ → α → Prop}
    (h : ∀ s a, ok s a → ok' s a) : Run step ok' start ms s := by
  induction run with
  | nil => exact .nil
  | snoc _ permitted next ih => exact ih.snoc (h _ _ permitted) next

end

theorem Run.performed (ok : σ → α → Prop) {as : List α} {t : σ} (h : Library.play step s as = some t)
    (hok : ∀ a ∈ as, ∀ s, ok s a) : ∃ ms, Run step ok s ms t ∧ ms.map Move.act = as := by
  have run := Run.nil.trace h
  rw [nil_append] at run
  refine ⟨_,run.restrict ?_,trace_acts h⟩
  intro m hm
  refine hok m.act ?_ _
  rw [← trace_acts h]
  exact mem_map_of_mem hm

end Montage.Library
