import Montage.Mindicator.Quiescent

namespace Montage.Mindicator.Marked
open Function List Option
open Concurrent (Inner)

/-- `MarkedVal`: the last bit of its `mark` is `dirty`, the others are the counter. -/
structure MarkedVal where
  v : Nat
  dirty : Bool
  counter : Nat
  deriving DecidableEq

/-- `prepare_mark`: the counter goes on from the one that is replaced. -/
def MarkedVal.prepareMark (x old : MarkedVal) : MarkedVal :=
  { x with counter := (old.counter + 2) % 2 ^ 64 }

abbrev Memory := Way → MarkedVal

/-- `CAS_val`: whether it succeeds, and what it leaves in memory. -/
def casVal (m : Memory) (n : Way) (old target : MarkedVal) : Bool × Memory :=
  if m n = old then (true,update m n (target.prepareMark old)) else (false,m)

def clean (val : Nat) (m : Memory) (n : Way) : Memory :=
  let x := m n
  if x.v = val ∧ x.dirty then (casVal m n x ⟨val,false,0⟩).2 else m

/-- The fuel bounds the rounds of `while (true)`. -/
def propagate (val : Nat) (n : Way) : Nat → Memory → Option (Bool × Memory)
  | 0, _ => none
  | fuel + 1, m =>
    let x := m n
    if x.v > val then
      let cas := casVal m n x ⟨val,true,0⟩
      if cas.1 then some (false,cas.2) else propagate val n fuel cas.2
    else if x.dirty then some (false,m)
    else
      let cas := casVal m n x x
      if cas.1 then some (true,cas.2) else propagate val n fuel cas.2

def summarize (val : Nat) (n : Way) : Nat → Memory → Option (Bool × Memory)
  | 0, _ => none
  | fuel + 1, m =>
    let x := m n
    if x.dirty then some (x.v < val,m)
    else
      let childrenMin := min (m (false :: n)).v (m (true :: n)).v
      if childrenMin < x.v ∧ childrenMin < val then some (true,m)
      else
        let cas := casVal m n x ⟨childrenMin,childrenMin < x.v,0⟩
        if cas.1 then some (x.v < val,cas.2) else summarize val n fuel cas.2

def path : Way → List Way
  | [] => []
  | _ :: p => p :: path p

/-- A loop that goes up a path until `visit` says that it is done. Returns the nodes it has
visited, the topmost first. -/
def climbUp (visit : Way → Memory → Option (Bool × Memory)) (seen : List Way) :
    List Way → Memory → Option (List Way × Memory)
  | [], m => some (seen,m)
  | n :: above, m =>
    match visit n m with
    | none => none
    | some (true,m') => some (n :: seen,m')
    | some (false,m') => climbUp visit (n :: seen) above m'

/-- The propagate stage, and the clean stage on the same nodes in the opposite order. -/
def arrive (fuel val : Nat) (leaf : Way) (m : Memory) : Option (List Way × Memory) :=
  (climbUp (fun n => propagate val n fuel) [] (path leaf) m).map fun up =>
    (up.1,up.1.foldl (clean val) up.2)

def depart (fuel val : Nat) (leaf : Way) (m : Memory) : Option (List Way × Memory) :=
  climbUp (fun n => summarize val n fuel) [] (path leaf) m

def setLeaf (val : Nat) (leaf : Way) : Nat → MarkedVal → Memory → Option (MarkedVal × Memory)
  | 0, _, _ => none
  | fuel + 1, old, m =>
    let cas := casVal m leaf old (MarkedVal.prepareMark ⟨val,false,0⟩ old)
    if cas.1 then some (old,cas.2) else setLeaf val leaf fuel (m leaf) m

/-- `&leaves[tid]` of the tracker for `n` threads. -/
def leafOf (n tid : Nat) : Option Way := (build n).leafWay tid []

/-- `change(val, tid)`. Returns the nodes that it visits, in order. -/
def change (n fuel val tid : Nat) (m : Memory) : Option (List Way × Memory) :=
  (leafOf n tid).bind fun leaf =>
    let old := m leaf
    if old.v = val then some ([leaf],m)
    else
      (setLeaf val leaf fuel old m).bind fun set =>
        (arrive fuel val leaf set.2).bind fun up =>
          (depart fuel set.1.v leaf up.2).map fun down =>
            (leaf :: up.1.reverse ++ up.1 ++ down.1.reverse,down.2)

def init : Memory := fun _ => ⟨uint64Max,false,0⟩

/-- What calls of `change`, one after the other, lead to. -/
inductive Reaches (n : Nat) : Memory → Prop
  | init : Reaches n init
  | change (h : Reaches n m) (ht : tid < n) (hv : val ≤ uint64Max)
      (hc : change n fuel val tid m = some (visited,m')) : Reaches n m'

structure Settled (m : Memory) (p : Way) : Prop where
  clean : (m p).dirty = false
  least : (m p).v = min (m (false :: p)).v (m (true :: p)).v

def Exact (tree : Tree) (m : Memory) : Prop := ∀ p, Inner tree p → Settled m p

def snapshot (n : Nat) (m : Memory) : Tree := (build n).fill (fun p => (m p).v) []

/-- All is settled but a node that `summarize(old, p)` comes to next: it may be behind its
children, but then it was not below the old value of the leaf. -/
structure Pending (tree : Tree) (old : Nat) (m : Memory) (p : Way) : Prop where
  others : ∀ q, Inner tree q → q ≠ p → Settled m q
  clean : (m p).dirty = false
  low : (m p).v ≤ min (m (false :: p)).v (m (true :: p)).v
  stale : (m p).v < min (m (false :: p)).v (m (true :: p)).v → old ≤ (m p).v

variable {tree : Tree} {m m' : Memory} {p q leaf : Way} {val old fuel : Nat}

theorem mem_path : q ∈ path p ↔ q <:+ p ∧ q ≠ p := by
  induction p with
  | nil => simp [path]
  | cons b p ih =>
    simp only [path,mem_cons,ih,suffix_cons_iff]
    constructor
    · rintro (rfl | ⟨h,-⟩)
      · exact ⟨.inr (suffix_refl _),by simp⟩
      · refine ⟨.inr h,?_⟩
        rintro rfl
        have hlength := h.length_le
        simp only [length_cons] at hlength
        omega
    · rintro ⟨h | h,hne⟩
      · exact absurd h hne
      · by_cases hq : q = p
        · exact .inl hq
        · exact .inr ⟨h,hq⟩

theorem summarize_pending (fuel : Nat) (h : Pending tree old m p) : ∃ x : MarkedVal,
    summarize old p (fuel + 1) m = some (decide ((m p).v < old),update m p x) ∧
      x.dirty = false ∧ x.v = min (m (false :: p)).v (m (true :: p)).v := by
  have hlow := h.low
  refine ⟨MarkedVal.prepareMark ⟨min (m (false :: p)).v (m (true :: p)).v,false,0⟩ (m p),?_,rfl,rfl⟩
  have hge : ¬min (m (false :: p)).v (m (true :: p)).v < (m p).v := by omega
  simp [summarize,h.clean,casVal,hge]

theorem Settled.update {x : MarkedVal} (h : Settled m q) (hp : q ≠ p)
    (hchild : ∀ b, b :: q ≠ p) : Settled (update m p x) q := by
  refine ⟨?_,?_⟩
  · rw [update_of_ne hp]
    exact h.clean
  · rw [update_of_ne hp,update_of_ne (hchild _),update_of_ne (hchild _)]
    exact h.least

theorem settled_update {x : MarkedVal} (hx : x.dirty = false)
    (hv : x.v = min (m (false :: p)).v (m (true :: p)).v) : Settled (update m p x) p := by
  refine ⟨by rw [update_self]; exact hx,?_⟩
  rw [update_self,update_of_ne (by simp),update_of_ne (by simp)]
  exact hv

/-- If `summarize` stops, nothing has changed, and the parent is settled as well. -/
theorem Pending.stop {x : MarkedVal} (h : Pending tree old m p) (hlt : (m p).v < old)
    (hx : x.dirty = false) (hv : x.v = min (m (false :: p)).v (m (true :: p)).v) :
    Exact tree (update m p x) := by
  have hsame : x.v = (m p).v := by
    have hlow := h.low
    have hstale := h.stale
    omega
  intro q hq
  by_cases hqp : q = p
  · subst hqp
    exact settled_update hx hv
  · have hval : ∀ r, (update m p x r).v = (m r).v := by
      intro r
      rw [update_apply]
      split
      next hr => rw [hsame,hr]
      next => rfl
    obtain ⟨hclean,hleast⟩ := h.others q hq hqp
    exact ⟨by rwa [update_of_ne hqp],by rw [hval,hval,hval]; exact hleast⟩

theorem Settled.pending {b : Bool} (h : Settled m p)
    (hothers : ∀ q, Inner tree q → q ≠ p → Settled m' q)
    (hclean : (m' p).dirty = false) (hsame : ∀ r, r ≠ b :: p → (m' r).v = (m r).v)
    (hrise : (m (b :: p)).v ≤ (m' (b :: p)).v) (hge : old ≤ (m (b :: p)).v) :
    Pending tree old m' p := by
  have hleast := h.least
  have hself := hsame p (by simp)
  cases b with
  | false =>
    have hother := hsame (true :: p) (by simp)
    exact ⟨hothers,hclean,by omega,fun hlt => by omega⟩
  | true =>
    have hother := hsame (false :: p) (by simp)
    exact ⟨hothers,hclean,by omega,fun hlt => by omega⟩

theorem Pending.climb {x : MarkedVal} {b : Bool} (h : Pending tree old m (b :: p))
    (hinner : Inner tree p) (hge : old ≤ (m (b :: p)).v) (hx : x.dirty = false)
    (hv : x.v = min (m (false :: b :: p)).v (m (true :: b :: p)).v) :
    Pending tree old (update m (b :: p) x) p := by
  have hp := h.others p hinner (by simp)
  refine hp.pending ?_ ?_ ?_ ?_ hge
  · intro q hq hqp
    by_cases hqb : q = b :: p
    · subst hqb
      exact settled_update hx hv
    · refine (h.others q hq hqb).update hqb ?_
      intro c hc
      exact hqp (cons.inj hc).2
  · rw [update_of_ne (by simp)]
    exact hp.clean
  · intro r hr
    rw [update_of_ne hr]
  · rw [update_self,hv]
    exact h.low

theorem inner_parent {b : Bool} (h : Inner tree (b :: p)) : Inner tree p := by
  obtain ⟨v,l,r,h⟩ := h
  obtain ⟨w,l',r',hp,-⟩ := sub_child h
  exact ⟨w,l',r',hp⟩

theorem depart_spec (fuel : Nat) (seen : List Way) (hinner : Inner tree p)
    (h : Pending tree old m p) : ∃ seen' m',
    climbUp (fun n => summarize old n (fuel + 1)) seen (p :: path p) m = some (seen',m') ∧
      Exact tree m' ∧ ∀ q ∉ p :: path p, m' q = m q := by
  induction p generalizing m seen with
  | nil =>
    obtain ⟨x,hsum,hx,hv⟩ := summarize_pending fuel h
    have hexact : Exact tree (update m [] x) := by
      intro q hq
      by_cases hqp : q = []
      · subst hqp
        exact settled_update hx hv
      · exact (h.others q hq hqp).update hqp (by simp)
    refine ⟨[] :: seen,update m [] x,?_,hexact,?_⟩
    · simp only [path,climbUp,hsum]
      by_cases hlt : (m []).v < old <;> simp [hlt]
    · intro q hq
      exact update_of_ne (ne_of_not_mem_cons hq) _ _
  | cons b p ih =>
    obtain ⟨x,hsum,hx,hv⟩ := summarize_pending fuel h
    by_cases hlt : (m (b :: p)).v < old
    · refine ⟨(b :: p) :: seen,update m (b :: p) x,by simp [climbUp,hsum,hlt],
        h.stop hlt hx hv,?_⟩
      intro q hq
      exact update_of_ne (ne_of_not_mem_cons hq) _ _
    · have hparent := inner_parent hinner
      obtain ⟨seen',m',hclimb,hexact,hframe⟩ := ih ((b :: p) :: seen) hparent
        (h.climb hparent (by omega) hx hv)
      refine ⟨seen',m',?_,hexact,?_⟩
      · rw [climbUp,hsum]
        simpa [hlt,path] using hclimb
      · intro q hq
        rw [hframe q (not_mem_of_not_mem_cons hq),
          update_of_ne (ne_of_not_mem_cons hq)]

theorem climb_up_seen {visit : Way → Memory → Option (Bool × Memory)} {seen seen' ns : List Way}
    (h : climbUp visit seen ns m = some (seen',m')) : ∀ q ∈ seen', q ∈ seen ∨ q ∈ ns := by
  induction ns generalizing seen m with
  | nil =>
    cases h
    exact fun q hq => .inl hq
  | cons n above ih =>
    simp only [climbUp] at h
    have hfirst : ∀ q ∈ n :: seen, q ∈ seen ∨ q ∈ n :: above := by
      intro q hq
      rcases mem_cons.mp hq with hq | hq
      · exact .inr (mem_cons.mpr (.inl hq))
      · exact .inl hq
    split at h
    next => cases h
    next =>
      cases h
      exact hfirst
    next =>
      intro q hq
      rcases ih h q hq with hq | hq
      · exact hfirst q hq
      · exact .inr (mem_cons_of_mem _ hq)

/-- One node in the propagate stage: its value goes down to `val`, and it is dirty if that is
news. -/
theorem propagate_clean (val fuel : Nat) (h : (m p).dirty = false) : ∃ x : MarkedVal,
    propagate val p (fuel + 1) m = some (decide ((m p).v ≤ val),update m p x) ∧
      x.v = min (m p).v val ∧ (x.dirty = true → x.v = val) := by
  by_cases hgt : (m p).v > val
  · refine ⟨MarkedVal.prepareMark ⟨val,true,0⟩ (m p),?_,?_,fun _ => rfl⟩
    · simp [propagate,casVal,hgt]
    · simp only [MarkedVal.prepareMark]
      omega
  · refine ⟨MarkedVal.prepareMark (m p) (m p),?_,?_,?_⟩
    · have hle : (m p).v ≤ val := by omega
      simp [propagate,casVal,hgt,h,hle]
    · simp only [MarkedVal.prepareMark]
      omega
    · intro hdirty
      cases h.symm.trans hdirty

/-- The propagate stage visits as much of the path as is above `val`, and one node more. -/
structure Propagated (val : Nat) (ns new : List Way) (m m' : Memory) : Prop where
  part : ∀ q ∈ new, q ∈ ns
  rest : ∀ q ∉ new, m' q = m q
  above : ∀ q ∈ ns, q ∉ new → (m q).v ≤ val
  lowered : ∀ q ∈ new, (m' q).v = min (m q).v val
  dirty : ∀ q ∈ new, (m' q).dirty = true → (m' q).v = val

theorem propagate_stage (val fuel : Nat) (seen : List Way) {ns : List Way} (hnodup : ns.Nodup)
    (hclean : ∀ q ∈ ns, (m q).dirty = false) (hsorted : ns.Pairwise fun q r => (m r).v ≤ (m q).v) :
    ∃ new m', climbUp (fun n => propagate val n (fuel + 1)) seen ns m = some (new ++ seen,m') ∧
      Propagated val ns new m m' := by
  induction ns generalizing m seen with
  | nil => exact ⟨[],m,rfl,by simp,fun _ _ => rfl,by simp,by simp,by simp⟩
  | cons n above ih =>
    obtain ⟨hn,hnodup⟩ := nodup_cons.mp hnodup
    obtain ⟨hfirst,hsorted⟩ := pairwise_cons.mp hsorted
    obtain ⟨x,hpropagate,hx,hdirty⟩ := propagate_clean val fuel
      (hclean n mem_cons_self)
    by_cases hle : (m n).v ≤ val
    · refine ⟨[n],update m n x,by simp [climbUp,hpropagate,hle],by simp,?_,?_,?_,?_⟩
      · intro q hq
        exact update_of_ne (by simpa using hq) _ _
      · intro q hq hnew
        rcases mem_cons.mp hq with hq | hq
        · exact absurd (by simp [hq]) hnew
        · exact le_trans (hfirst q hq) hle
      · intro q hq
        cases mem_singleton.mp hq
        rwa [update_self]
      · intro q hq
        cases mem_singleton.mp hq
        rwa [update_self]
    · have hsame : ∀ q ∈ above, update m n x q = m q := by
        intro q hq
        refine update_of_ne ?_ _ _
        rintro rfl
        exact hn hq
      obtain ⟨new,m',hclimb,hnew⟩ := ih (m := update m n x) (n :: seen) hnodup
        (fun q hq => by rw [hsame q hq]; exact hclean q (mem_cons_of_mem _ hq))
        (hsorted.imp_of_mem fun {q r} hq hr h => by rw [hsame q hq,hsame r hr]; exact h)
      have hlast : m' n = x := by
        rw [hnew.rest n fun h => hn (hnew.part n h),update_self]
      refine ⟨new ++ [n],m',by simpa [climbUp,hpropagate,hle] using hclimb,?_,?_,?_,?_,?_⟩
      · intro q hq
        rcases mem_append.mp hq with hq | hq
        · exact mem_cons_of_mem _ (hnew.part q hq)
        · exact mem_cons.mpr (.inl (mem_singleton.mp hq))
      · intro q hq
        have hnot : q ∉ new ∧ q ≠ n := by simpa using hq
        rw [hnew.rest q hnot.1,update_of_ne hnot.2]
      · intro q hq hnot
        rcases mem_cons.mp hq with rfl | hq
        · exact absurd (by simp) hnot
        · rw [← hsame q hq]
          exact hnew.above q hq fun h => hnot (mem_append_left _ h)
      · intro q hq
        rcases mem_append.mp hq with hq | hq
        · rw [hnew.lowered q hq,hsame q (hnew.part q hq)]
        · cases mem_singleton.mp hq
          rwa [hlast]
      · intro q hq
        rcases mem_append.mp hq with hq | hq
        · exact hnew.dirty q hq
        · cases mem_singleton.mp hq
          rwa [hlast]

theorem clean_other (hq : q ≠ p) : clean val m p q = m q := by
  simp only [clean,casVal]
  split
  next => simp [update_of_ne hq]
  next => rfl

theorem clean_self (h : (m p).dirty = true → (m p).v = val) :
    (clean val m p p).dirty = false ∧ (clean val m p p).v = (m p).v := by
  simp only [clean,casVal]
  split
  next hmarked => simp [MarkedVal.prepareMark,hmarked.1]
  next hnot =>
    refine ⟨?_,rfl⟩
    by_contra hdirty
    simp only [Bool.not_eq_false] at hdirty
    exact hnot ⟨h hdirty,hdirty⟩

theorem clean_stage {ns : List Way} (h : ∀ q ∈ ns, (m q).dirty = true → (m q).v = val) :
    (∀ q ∉ ns, ns.foldl (clean val) m q = m q) ∧
      ∀ q ∈ ns, (ns.foldl (clean val) m q).dirty = false ∧
        (ns.foldl (clean val) m q).v = (m q).v := by
  induction ns generalizing m with
  | nil => exact ⟨fun _ _ => rfl,by simp⟩
  | cons n ns ih =>
    have hself := clean_self (h n mem_cons_self)
    obtain ⟨hrest,hclean⟩ := ih (m := clean val m n) fun q hq => by
      by_cases hqn : q = n
      · intro hdirty
        rw [hqn,hself.1] at hdirty
        cases hdirty
      · rw [clean_other hqn]
        exact h q (mem_cons_of_mem _ hq)
    refine ⟨?_,?_⟩
    · intro q hq
      have hnot : q ≠ n ∧ q ∉ ns := by simpa using hq
      rw [foldl_cons,hrest q hnot.2,clean_other hnot.1]
    · intro q hq
      rw [foldl_cons]
      by_cases hqn : q = n
      · subst hqn
        by_cases hlater : q ∈ ns
        · rw [(hclean q hlater).2]
          exact ⟨(hclean q hlater).1,hself.2⟩
        · rw [hrest q hlater]
          exact hself
      · have hlater : q ∈ ns := (mem_cons.mp hq).resolve_left hqn
        rw [(hclean q hlater).2,clean_other hqn]
        exact ⟨(hclean q hlater).1,rfl⟩

theorem path_nodup (p : Way) : (path p).Nodup := by
  induction p with
  | nil => exact nodup_nil
  | cons b p ih =>
    refine nodup_cons.mpr ⟨?_,ih⟩
    intro h
    exact (mem_path.mp h).2 rfl

theorem arrive_spec (leaf : Way) (val fuel : Nat) (hclean : ∀ q ∈ path leaf, (m q).dirty = false)
    (hsorted : (path leaf).Pairwise fun q r => (m r).v ≤ (m q).v) : ∃ seen m',
    arrive (fuel + 1) val leaf m = some (seen,m') ∧ (∀ q ∈ seen, q ∈ path leaf) ∧
      (∀ q ∉ path leaf, m' q = m q) ∧
      ∀ q ∈ path leaf, (m' q).dirty = false ∧ (m' q).v = min (m q).v val := by
  obtain ⟨seen,m1,hclimb,h⟩ := propagate_stage val fuel [] (path_nodup leaf)
    hclean hsorted
  obtain ⟨hrest,hstage⟩ := clean_stage h.dirty
  rw [append_nil] at hclimb
  refine ⟨seen,seen.foldl (clean val) m1,by simp [arrive,hclimb],h.part,?_,?_⟩
  · intro q hq
    have hnot : q ∉ seen := fun hseen => hq (h.part q hseen)
    rw [hrest q hnot,h.rest q hnot]
  · intro q hq
    by_cases hseen : q ∈ seen
    · rw [(hstage q hseen).2]
      exact ⟨(hstage q hseen).1,h.lowered q hseen⟩
    · rw [hrest q hseen,h.rest q hseen]
      have hlow := h.above q hq hseen
      exact ⟨hclean q hq,by omega⟩

theorem inner_path (h : Inner tree p) : ∀ q ∈ p :: path p, Inner tree q := by
  induction p with
  | nil => simpa [path] using h
  | cons b p ih =>
    intro q hq
    rcases mem_cons.mp hq with rfl | hq
    · exact h
    · exact ih (inner_parent h) q hq

theorem Settled.le {b : Bool} (h : Settled m p) : (m p).v ≤ (m (b :: p)).v := by
  have hleast := h.least
  cases b <;> omega

theorem Exact.sorted (h : Exact tree m) (hp : Inner tree p) :
    (p :: path p).Pairwise fun q r => (m r).v ≤ (m q).v := by
  induction p with
  | nil => simp [path]
  | cons b p ih =>
    have hparent := inner_parent hp
    have hsorted := ih hparent
    refine pairwise_cons.mpr ⟨?_,hsorted⟩
    intro r hr
    have hle : (m p).v ≤ (m (b :: p)).v := (h p hparent).le
    rcases mem_cons.mp hr with rfl | hr
    · exact hle
    · exact le_trans ((pairwise_cons.mp hsorted).1 r hr) hle

theorem Exact.pending (h : Exact tree m) (hp : Inner tree p) :
    Pending tree old m p := by
  have hleast := (h p hp).least
  exact ⟨fun q hq _ => h q hq,(h p hp).clean,by omega,fun hlt => by omega⟩

theorem suffix_child (h : q ∈ path leaf) : ∃ b : Bool, b :: q <:+ leaf ∧ ¬(!b) :: q <:+ leaf := by
  obtain ⟨⟨r,hr⟩,hne⟩ := mem_path.mp h
  rcases eq_nil_or_concat r with rfl | ⟨r',b,rfl⟩
  · exact absurd hr hne
  · have hsuffix : b :: q <:+ leaf := ⟨r',by simpa using hr⟩
    refine ⟨b,hsuffix,?_⟩
    intro hother
    have heq := (suffix_of_suffix_length_le hother hsuffix (by simp)).eq_of_length (by simp)
    simp at heq

theorem suffix_parent {b : Bool} (h : b :: q <:+ leaf) : q ∈ path leaf := by
  refine mem_path.mpr ⟨(suffix_cons b q).trans h,?_⟩
  rintro rfl
  have hlength := h.length_le
  simp only [length_cons] at hlength
  omega

theorem Exact.lowered (leaf : Way) (val : Nat) (h : Exact tree m) (hleaf : ¬Inner tree leaf)
    (hclean : ∀ q, Inner tree q → (m' q).dirty = false)
    (hon : ∀ q, q <:+ leaf → (m' q).v = min (m q).v val)
    (hoff : ∀ q, ¬q <:+ leaf → (m' q).v = (m q).v) : Exact tree m' := by
  intro q hq
  have hleast := (h q hq).least
  refine ⟨hclean q hq,?_⟩
  by_cases hpath : q ∈ path leaf
  · obtain ⟨b,hb,hother⟩ := suffix_child hpath
    have hself := hon q (mem_path.mp hpath).1
    have hchild := hon _ hb
    have hsibling := hoff _ hother
    cases b with
    | false =>
      simp only [Bool.not_false] at hsibling
      omega
    | true =>
      simp only [Bool.not_true] at hsibling
      omega
  · have hnot : ∀ b : Bool, ¬b :: q <:+ leaf := fun b hb => hpath (suffix_parent hb)
    rw [hoff _ (hnot false),hoff _ (hnot true)]
    have hself : ¬q <:+ leaf := by
      intro hsuffix
      refine hpath (mem_path.mpr ⟨hsuffix,?_⟩)
      rintro rfl
      exact hleaf hq
    rw [hoff q hself]
    exact hleast

theorem Exact.arrived {b : Bool} (h : Exact tree m) (hp : Inner tree p)
    (hleaf : ¬Inner tree (b :: p)) (hstored : (m' (b :: p)).v = val)
    (hon : ∀ q ∈ path (b :: p), (m' q).dirty = false ∧ (m' q).v = min (m q).v val)
    (hoff : ∀ q, q ≠ b :: p → q ∉ path (b :: p) → m' q = m q) :
    Pending tree (m (b :: p)).v m' p := by
  have hclean : ∀ q, Inner tree q → (m' q).dirty = false := by
    intro q hq
    by_cases hpath : q ∈ path (b :: p)
    · exact (hon q hpath).1
    · have hne : q ≠ b :: p := by
        rintro rfl
        exact hleaf hq
      rw [hoff q hne hpath]
      exact (h q hq).clean
  rcases Nat.lt_or_ge val (m (b :: p)).v with hlt | hge
  · refine (h.lowered (b :: p) val hleaf hclean ?_ ?_).pending hp
    · intro q hq
      by_cases hqp : q = b :: p
      · subst hqp
        omega
      · exact (hon q (mem_path.mpr ⟨hq,hqp⟩)).2
    · intro q hq
      rw [hoff q (fun h => hq (h ▸ suffix_refl _)) fun h => hq (mem_path.mp h).1]
  · -- nothing above the leaf has changed
    have hsame : ∀ q, q ≠ b :: p → (m' q).v = (m q).v := by
      intro q hq
      by_cases hpath : q ∈ path (b :: p)
      · have hle : (m p).v ≤ (m (b :: p)).v := (h p hp).le
        have hbelow : (m q).v ≤ (m p).v := by
          rcases mem_cons.mp hpath with rfl | hpath
          · exact le_rfl
          · exact (pairwise_cons.mp (h.sorted hp)).1 q hpath
        rw [(hon q hpath).2]
        omega
      · rw [hoff q hq hpath]
    refine (h p hp).pending ?_ (hclean p hp) hsame (by omega) le_rfl
    intro q hq hqp
    have hne : q ≠ b :: p := by
      rintro rfl
      exact hleaf hq
    refine ⟨hclean q hq,?_⟩
    rw [hsame q hne,hsame _ fun heq => hqp (cons.inj heq).2,
      hsame _ fun heq => hqp (cons.inj heq).2]
    exact (h q hq).least

theorem leaf_of_spec {n tid : Nat} (hn : 0 < n) (h : leafOf n tid = some leaf) :
    ∃ b p, leaf = b :: p ∧ Inner (build n) p ∧
      ¬Inner (build n) leaf := by
  obtain ⟨v,hsub⟩ := leaf_way_leaf rfl h
  cases leaf with
  | nil =>
    have hpaired := (build_shape hn).1
    cases some.inj hsub ▸ hpaired
  | cons b p =>
    obtain ⟨w,l,r,hp,-⟩ := sub_child hsub
    refine ⟨b,p,rfl,⟨w,l,r,hp⟩,?_⟩
    rintro ⟨w',l',r',hnode⟩
    cases hsub.symm.trans hnode

theorem change_spec {n tid : Nat} (fuel val : Nat) (hn : 0 < n) (hexact : Exact (build n) m)
    (hleaf : leafOf n tid = some leaf) : ∃ visited m',
    change n (fuel + 1) val tid m = some (visited,m') ∧ Exact (build n) m' ∧
      (∀ q ∈ visited, q ∈ leaf :: path leaf) ∧ (m' leaf).v = val ∧
      ∀ q ∉ leaf :: path leaf, m' q = m q := by
  by_cases hsame : (m leaf).v = val
  · exact ⟨[leaf],m,by simp [change,hleaf,hsame],hexact,by simp,hsame,fun _ _ => rfl⟩
  · obtain ⟨b,p,rfl,hp,hnot⟩ := leaf_of_spec hn hleaf
    have hfresh : b :: p ∉ path (b :: p) := fun h => (mem_path.mp h).2 rfl
    obtain ⟨x,hset,hx⟩ : ∃ x : MarkedVal, setLeaf val (b :: p) (fuel + 1) (m (b :: p)) m =
        some (m (b :: p),update m (b :: p) x) ∧ x.v = val :=
      ⟨(MarkedVal.prepareMark ⟨val,false,0⟩ (m (b :: p))).prepareMark (m (b :: p)),
        by simp [setLeaf,casVal],rfl⟩
    have hstored : ∀ q, q ≠ b :: p → update m (b :: p) x q = m q :=
      fun q hq => update_of_ne hq _ _
    have hpath : ∀ q ∈ path (b :: p), update m (b :: p) x q = m q := by
      intro q hq
      refine hstored q ?_
      rintro rfl
      exact hfresh hq
    obtain ⟨up,m2,harrive,hup,hoff,hon⟩ := arrive_spec (m := update m (b :: p) x)
      (b :: p) val fuel
      (fun q hq => by rw [hpath q hq]; exact (hexact q (inner_path hp q hq)).clean)
      ((hexact.sorted hp).imp_of_mem fun {q r} hq hr h => by rw [hpath q hq,hpath r hr]; exact h)
    have hleaf2 : (m2 (b :: p)).v = val := by
      rw [hoff _ hfresh,update_self]
      exact hx
    have hpending : Pending (build n) (m (b :: p)).v m2 p := by
      refine hexact.arrived hp hnot hleaf2 ?_ ?_
      · intro q hq
        rw [← hpath q hq]
        exact hon q hq
      · intro q hq hqp
        rw [hoff q hqp,hstored q hq]
    obtain ⟨down,m3,hdepart,hexact3,hframe⟩ := depart_spec fuel [] hp hpending
    have hdown := climb_up_seen hdepart
    refine ⟨(b :: p) :: up.reverse ++ up ++ down.reverse,m3,?_,hexact3,?_,?_,?_⟩
    · simp only [change,hleaf,bind_some,if_neg hsame,hset,harrive]
      rw [depart,path,hdepart]
      rfl
    · intro q hq
      simp only [mem_append,mem_reverse,mem_cons] at hq
      rcases hq with ((hq | hq) | hq) | hq
      · exact mem_cons.mpr (.inl hq)
      · exact mem_cons_of_mem _ (hup q hq)
      · exact mem_cons_of_mem _ (hup q hq)
      · exact mem_cons_of_mem _ ((hdown q hq).resolve_left (by simp))
    · rw [hframe _ hfresh]
      exact hleaf2
    · intro q hq
      rw [hframe q (not_mem_of_not_mem_cons hq),hoff q (not_mem_of_not_mem_cons hq),
        hstored q (ne_of_not_mem_cons hq)]

theorem fill_exact {t : Tree} (h : Exact tree m) (hp : Paired t) (hsub : tree.sub p = some t) :
    (t.fill (fun q => (m q).v) p).Exact := by
  induction hp generalizing p with
  | pair => exact ⟨(h p ⟨_,_,_,hsub⟩).least,trivial,trivial⟩
  | node hl hr ihl ihr =>
    refine ⟨?_,ihl (by simp [Tree.sub,hsub]),ihr (by simp [Tree.sub,hsub])⟩
    rw [fill_val _ _ _ (Concurrent.Paired.ne_null hl),fill_val _ _ _ (Concurrent.Paired.ne_null hr)]
    exact (h p ⟨_,_,_,hsub⟩).least

theorem fill_paired {t : Tree} (hp : Paired t) (vals : Way → Nat) : Paired (t.fill vals p) := by
  induction hp generalizing p with
  | pair => exact .pair
  | node _ _ ihl ihr => exact .node ihl ihr

theorem leaf_way_some {t : Tree} {tid : Nat} (h : t.has tid = true) :
    ∃ q, t.leafWay tid p = some q := by
  induction t generalizing p with
  | null => simp [Tree.has] at h
  | leaf =>
    simp only [Tree.has,decide_eq_true_eq] at h
    exact ⟨p,by simp [Tree.leafWay,h]⟩
  | node v l r ihl ihr =>
    simp only [Tree.leafWay]
    cases hl : l.leafWay tid (false :: p) with
    | some q => exact ⟨q,rfl⟩
    | none =>
      simp only [Tree.has,Bool.or_eq_true] at h
      rcases h with h | h
      · obtain ⟨q,hq⟩ := ihl (p := false :: p) h
        cases hl.symm.trans hq
      · exact ihr h

theorem leaf_of_some {n tid : Nat} (hn : 0 < n) (ht : tid < n) : ∃ leaf, leafOf n tid = some leaf :=
  leaf_way_some (has_of_leaves (build_distinct hn).2 ht)

theorem init_exact (tree : Tree) : Exact tree init := fun _ _ => ⟨rfl,by simp [init]⟩

/-- A call that returns, with any fuel, keeps the tree exact and leaves all that is not on the path
of its leaf as it is. -/
theorem change_frame {n tid : Nat} {visited : List Way} (hn : 0 < n) (h : Exact (build n) m)
    (hleaf : leafOf n tid = some leaf) (hc : change n fuel val tid m = some (visited,m')) :
    Exact (build n) m' ∧ ∀ q ∉ leaf :: path leaf, m' q = m q := by
  cases fuel with
  | zero =>
    simp only [change,hleaf,bind_some,setLeaf,bind_none] at hc
    split at hc <;> cases hc
    exact ⟨h,fun _ _ => rfl⟩
  | succ fuel =>
    obtain ⟨visited',m'',hspec,hexact,-,-,hframe⟩ := change_spec fuel val hn h hleaf
    cases hc.symm.trans hspec
    exact ⟨hexact,hframe⟩

theorem Reaches.exact {n : Nat} (hn : 0 < n) (h : Reaches n m) : Exact (build n) m := by
  induction h with
  | init => exact init_exact _
  | change _ ht _ hc ih =>
    obtain ⟨leaf,hleaf⟩ := leaf_of_some hn ht
    exact (change_frame hn ih hleaf hc).1

/-- After any sequence of calls of `change`, every internal node is clean and the minimum of its
children, and the root the minimum of the leaves; and every further call returns after visits to
the path of its leaf only, and changes nothing else. -/
theorem change_keeps_minima {n : Nat} (hn : 0 < n) (h : Reaches n m) :
    (∀ p, Inner (build n) p → (m p).dirty = false) ∧ (snapshot n m).Exact ∧
      (∀ e ∈ (snapshot n m).entries, (snapshot n m).val ≤ e.2) ∧
      (∃ e ∈ (snapshot n m).entries, e.2 = (snapshot n m).val) ∧
      ∀ val tid, tid < n → ∃ leaf, leafOf n tid = some leaf ∧ ∀ fuel, ∃ visited m',
        change n (fuel + 1) val tid m = some (visited,m') ∧ (m' leaf).v = val ∧
          (∀ q ∈ visited, q ∈ leaf :: path leaf) ∧ ∀ q ∉ leaf :: path leaf, m' q = m q := by
  have hexact := h.exact hn
  have hpaired := (build_shape hn).1
  have htree : (snapshot n m).Exact := fill_exact hexact hpaired rfl
  refine ⟨fun p hp => (hexact p hp).clean,htree,htree.ordered.le,
    htree.attained (fill_paired hpaired _),?_⟩
  intro val tid ht
  obtain ⟨leaf,hleaf⟩ := leaf_of_some hn ht
  refine ⟨leaf,hleaf,?_⟩
  intro fuel
  obtain ⟨visited,m',hspec,-,hvisited,hstored,hframe⟩ := change_spec fuel val hn hexact hleaf
  exact ⟨visited,m',hspec,hstored,hvisited,hframe⟩

def changes (n : Nat) : List (Nat × Nat) → Memory → Option Memory
  | [], m => some m
  | c :: cs, m => (change n 1 c.1 c.2 m).bind fun r => changes n cs r.2

theorem Reaches.changes {n : Nat} {cs : List (Nat × Nat)} (h : Reaches n m)
    (hcs : ∀ c ∈ cs, c.1 ≤ uint64Max ∧ c.2 < n) (hc : changes n cs m = some m') : Reaches n m' := by
  induction cs generalizing m with
  | nil =>
    cases hc
    exact h
  | cons c _ ih =>
    obtain ⟨⟨visited,m1⟩,hfirst,hrest⟩ := bind_eq_some_iff.mp hc
    obtain ⟨hval,htid⟩ := hcs c mem_cons_self
    exact ih (h.change htid hval hfirst) (fun c hc => hcs c (mem_cons_of_mem _ hc)) hrest

/-- Three workers arrive, and the first of them departs. -/
theorem change_keeps_minima_three : ∃ m, Reaches 3 m ∧
    snapshot 3 m =
      .node 6 (.node 6 (.leaf 0 9) (.leaf 1 6)) (.node 7 (.leaf 2 7) (.leaf 3 uint64Max)) ∧
      (snapshot 3 m).Exact := by
  obtain ⟨m,hchanges,htree⟩ : ∃ m, changes 3 [(5,0),(7,2),(6,1),(9,0)] init = some m ∧
      snapshot 3 m = .node 6 (.node 6 (.leaf 0 9) (.leaf 1 6))
        (.node 7 (.leaf 2 7) (.leaf 3 uint64Max)) :=
    map_eq_some_iff.mp (by decide +kernel)
  have hreaches := Reaches.init.changes (by decide) hchanges
  exact ⟨m,hreaches,htree,(change_keeps_minima (by decide) hreaches).2.1⟩

end Montage.Mindicator.Marked
