import Montage.LfHashTable.Model

namespace Montage.LfHashTable
open Library Function

variable {K V : Type} {T : Table K} {s s' : State K V}

theorem store_self : (s.store x w).word x = w := update_self _ _ _

theorem store_other (h : y ≠ x) : (s.store x w).word y = s.word y := update_of_ne h _ _

theorem store_marks (hx : (s.word x).mark = b) (hw : w.mark = b) (y : Loc) :
    ((s.store x w).word y).mark = (s.word y).mark := by
  by_cases hy : y = x
  · rw [hy,store_self,hw,hx]
  · rw [store_other hy]

theorem newNode_other {k : K} {v : V} (h : x ≠ .node s.made) : (s.newNode k v).word x = s.word x :=
  update_of_ne h _ _

theorem newNode_self {k : K} {v : V} : (s.newNode k v).word (.node s.made) = ⟨none,false⟩ :=
  update_self _ _ _

def State.next (s : State K V) (x : Loc) : Option Loc := (s.word x).ptr.map .node

def Published (s : State K V) : Loc → Prop
  | .bucket _ => True
  | .node n => n ∈ s.committed

def home (T : Table K) (s : State K V) : Loc → Nat
  | .bucket b => b
  | .node n => T.idx (s.key n)

variable [LinearOrder K]

/-- The order of neighbours in a list. A node may be followed by one of the same key, which
has replaced it, when it is marked. -/
def Before (T : Table K) (s : State K V) (x : Loc) (m : Nat) : Prop :=
  T.idx (s.key m) = home T s x ∧ ∀ n, x = .node n →
    s.key n ≤ s.key m ∧ ((s.word (.node n)).mark = false → s.key n < s.key m)

/-- The lists. What has been linked stays in its list until it is marked. -/
structure Core (T : Table K) (s : State K V) : Prop where
  buckets : ∀ b, (s.word (.bucket b)).mark = false
  lists : ∀ b, ∃ l, Chain s.next (some (.bucket b)) l ∧
    ∀ n ∈ s.committed, T.idx (s.key n) = b → (s.word (.node n)).mark = false → .node n ∈ l
  order : ∀ x m, Published s x → (s.word x).ptr = some m → m ∈ s.committed ∧ Before T s x m
  made : ∀ n ∈ s.committed, n < s.made
  retired : ∀ n, n ∈ s.retired ↔ n ∈ s.committed ∧ (s.word (.node n)).mark = true

theorem Before.trans (h : Before T s x m) (h' : Before T s (.node m) n) : Before T s x n := by
  refine ⟨h'.1.trans h.1,?_⟩
  intro k hk
  obtain ⟨hle,hlt⟩ := h.2 k hk
  obtain ⟨hle',_⟩ := h'.2 m rfl
  exact ⟨hle.trans hle',fun hmark => lt_of_lt_of_le (hlt hmark) hle'⟩

namespace Core

section
variable (h : Core T s)
include h

theorem next_published (hx : Published s x) (hn : s.next x = some y) :
    ∃ m, y = .node m ∧ m ∈ s.committed ∧ Before T s x m := by
  obtain ⟨m,hm,rfl⟩ := Option.map_eq_some_iff.mp hn
  exact ⟨m,rfl,h.order x m hx hm⟩

theorem published (hl : Chain s.next (some (.bucket b)) l) :
    ∀ x ∈ l, Published s x ∧ home T s x = b := by
  refine hl.forall ?_ ?_
  · intro x hx
    cases hx
    exact ⟨trivial,rfl⟩
  · rintro x y ⟨hx,hb⟩ hy
    obtain ⟨m,rfl,hm,hbefore⟩ := h.next_published hx hy
    exact ⟨hm,hbefore.1.trans hb⟩

theorem pairwise (hl : Chain s.next (some (.bucket b)) l) :
    l.Pairwise fun x y => ∃ m, y = .node m ∧ Before T s x m := by
  refine hl.pairwise ?_ ?_
  · rintro x _ _ ⟨m,rfl,hm⟩ ⟨n,rfl,hn⟩
    exact ⟨n,rfl,hm.trans hn⟩
  · intro x hx y hy
    obtain ⟨m,rfl,_,hm⟩ := h.next_published (h.published hl x hx).1 hy
    exact ⟨m,rfl,hm⟩

theorem bucket_chain (b : Nat) : ∃ l, Bucket s b l ∧
    Chain s.next (some (.bucket b)) (.bucket b :: l.map .node) := by
  obtain ⟨l,hl,_⟩ := h.lists b
  cases hl with
  | cons _ rest =>
    have hmap : ∀ n, s.next (.node n) = (s.word (.node n)).ptr.map .node := fun _ => rfl
    obtain ⟨l,rfl,hl⟩ := rest.of_map hmap
    exact ⟨l,hl,.cons _ rest⟩

theorem mem_list (hx : Published s x) (hmark : (s.word x).mark = false) :
    ∃ l, Chain s.next (some (.bucket (home T s x))) l ∧ x ∈ l ∧
      ∀ n ∈ s.committed, T.idx (s.key n) = home T s x → (s.word (.node n)).mark = false →
        .node n ∈ l := by
  obtain ⟨l,hl,hmem⟩ := h.lists (home T s x)
  refine ⟨l,hl,?_,hmem⟩
  cases x with
  | bucket =>
    cases hl with
    | cons => simp [home]
  | node p => exact hmem p hx rfl hmark

theorem live_iff : Live s n ↔ n ∈ s.committed ∧ (s.word (.node n)).mark = false := by
  refine ⟨?_,?_⟩
  · rintro ⟨⟨b,l,hl,hn⟩,hmark⟩
    refine ⟨?_,hmark⟩
    obtain ⟨l',hl',hchain⟩ := h.bucket_chain b
    cases hl.unique hl'
    exact (h.published hchain (.node n) (by simp [hn])).1
  · rintro ⟨hn,hmark⟩
    refine ⟨?_,hmark⟩
    obtain ⟨l,hl,hchain⟩ := h.bucket_chain (T.idx (s.key n))
    obtain ⟨l',hl',hnode,_⟩ := h.mem_list (x := .node n) hn hmark
    rw [hl'.unique hchain] at hnode
    refine ⟨_,l,hl,?_⟩
    simpa using hnode

theorem holds_none : Holds s key none ↔
    ∀ n ∈ s.committed, (s.word (.node n)).mark = false → s.key n ≠ key := by
  simp only [Holds,h.live_iff,and_imp]

theorem holds_some : Holds s key (some v) ↔
    ∃ n ∈ s.committed, (s.word (.node n)).mark = false ∧ s.key n = key ∧ s.val n = v := by
  simp only [Holds,h.live_iff,and_assoc]

end

end Core

def Prev (T : Table K) (s : State K V) (key : K) (x : Loc) : Prop :=
  Published s x ∧ home T s x = T.idx key ∧ ∀ p, x = .node p → s.key p < key

/-- If `prev` is not marked and what follows it is above the key, then the key is absent. -/
theorem Core.absent (h : Core T s) (hp : Prev T s key prev) (hmark : (s.word prev).mark = false)
    (hnext : ∀ c, (s.word prev).ptr = some c → key < s.key c) : Holds s key none := by
  rw [h.holds_none]
  intro n hn hlive hkey
  obtain ⟨hpub,hhome,hlt⟩ := hp
  obtain ⟨l,hl,hprev,hmem⟩ := h.mem_list hpub hmark
  have hnode := hmem n hn (by rw [hkey,hhome]) hlive
  obtain ⟨l1,l2,rfl⟩ := List.append_of_mem hprev
  have hpair := h.pairwise hl
  have hafter := hl.split
  rcases List.mem_append.mp hnode with hbefore | hnode
  · -- A live node before `prev` has a smaller key.
    obtain ⟨p,rfl,hbefore⟩ := (List.pairwise_append.mp hpair).2.2 _ hbefore prev (by simp)
    have hlt' := (hbefore.2 n rfl).2 hlive
    rw [hkey] at hlt'
    exact absurd (hlt'.trans (hlt p rfl)) (lt_irrefl _)
  · rcases List.mem_cons.mp hnode with heq | hnode
    · exact absurd hkey (hlt n heq.symm).ne
    · have hpair' := (List.pairwise_cons.mp (List.pairwise_append.mp hpair).2.1).2
      cases hptr : (s.word prev).ptr with
      | none =>
        rw [State.next,hptr] at hafter
        cases hafter
        cases hnode
      | some c =>
        rw [State.next,hptr] at hafter
        have hlt := hnext c hptr
        cases hafter with
        | cons =>
          rcases List.mem_cons.mp hnode with heq | hnode
          · cases heq
            exact absurd hkey hlt.ne'
          · obtain ⟨m,heq,hm⟩ := (List.pairwise_cons.mp hpair').1 _ hnode
            cases heq
            exact absurd ((hm.2 c rfl).1.trans_eq hkey) (not_le_of_gt hlt)

theorem Core.unlink (h : Core T s) (hx : Published s x) (hword : s.word x = ⟨some c,false⟩)
    (hc : s.word (.node c) = ⟨next,true⟩) : Core T (s.store x ⟨next,false⟩) := by
  have hmark : (s.word x).mark = false := by rw [hword]
  obtain ⟨hcm,hxc⟩ := h.order x c hx (by rw [hword])
  have hmarks : ∀ y, ((s.store x ⟨next,false⟩).word y).mark = (s.word y).mark :=
    store_marks hmark rfl
  have hbefore : ∀ y m, Before T s y m → Before T (s.store x ⟨next,false⟩) y m := by
    intro y m hm
    refine ⟨hm.1.trans (by cases y <;> rfl),fun n hn => ⟨(hm.2 n hn).1,?_⟩⟩
    rw [hmarks]
    exact (hm.2 n hn).2
  have hnext : ∀ y, y ≠ x → (s.store x ⟨next,false⟩).next y = s.next y := fun y hy => by
    rw [State.next,store_other hy]
    rfl
  refine ⟨fun b => (hmarks _).trans (h.buckets b),?_,?_,h.made,?_⟩
  · intro b
    by_cases hb : b = home T s x
    · subst hb
      obtain ⟨l,hl,hmem,hlive⟩ := h.mem_list hx hmark
      have hxnext : s.next x = some (.node c) := by rw [State.next,hword]; rfl
      have hlink : (s.store x ⟨next,false⟩).next x = s.next (.node c) := by
        rw [State.next,store_self,State.next,hc]
      obtain ⟨l',hl',hkeep⟩ := hl.remove hmem hxnext hlink fun y _ hy => hnext y hy
      refine ⟨l',hl',?_⟩
      intro n hn hidx hmark'
      rw [hmarks] at hmark'
      refine hkeep _ (hlive n hn hidx hmark') ?_
      intro heq
      cases heq
      rw [hc] at hmark'
      cases hmark'
    · -- The lists of other buckets do not come across `x`.
      obtain ⟨l,hl,hmem⟩ := h.lists b
      refine ⟨l,hl.congr fun y hy => hnext y ?_,?_⟩
      · rintro rfl
        exact hb (h.published hl y hy).2.symm
      · intro n hn hidx hmark'
        rw [hmarks] at hmark'
        exact hmem n hn hidx hmark'
  · intro y m hy hptr
    have hy : Published s y := by cases y <;> exact hy
    by_cases heq : y = x
    · subst heq
      rw [store_self] at hptr
      cases hptr
      obtain ⟨hm,hcm'⟩ := h.order (.node c) m hcm (by rw [hc])
      exact ⟨hm,hbefore _ _ (hxc.trans hcm')⟩
    · rw [store_other heq] at hptr
      obtain ⟨hm,hym⟩ := h.order y m hy hptr
      exact ⟨hm,hbefore _ _ hym⟩
  · intro n
    rw [hmarks]
    exact h.retired n

theorem Core.mark (h : Core T s) (hc : c ∈ s.committed) (hword : s.word (.node c) = ⟨next,false⟩)
    (hretired : s'.retired = s.retired ∪ {c}) (hsame : s' = { s with
      word := update s.word (.node c) ⟨next,true⟩
      retired := s'.retired
      thread := s'.thread }) : Core T s' := by
  have hself : s'.word (.node c) = ⟨next,true⟩ := by rw [hsame]; exact update_self _ _ _
  have hother : ∀ y, y ≠ .node c → s'.word y = s.word y := fun y hy => by
    rw [hsame]
    exact update_of_ne hy _ _
  have hcommitted : s'.committed = s.committed := by rw [hsame]
  have hkey : s'.key = s.key := by rw [hsame]
  have hptr : ∀ y, (s'.word y).ptr = (s.word y).ptr := by
    intro y
    by_cases hy : y = .node c
    · rw [hy,hself,hword]
    · rw [hother y hy]
  have hmarks : ∀ y, (s'.word y).mark = false → (s.word y).mark = false := by
    intro y
    by_cases hy : y = .node c
    · rw [hy,hself]
      intro hno
      cases hno
    · rw [hother y hy]
      exact id
  have hnext : s'.next = s.next := by
    funext y
    rw [State.next,State.next,hptr]
  refine ⟨?_,?_,?_,?_,?_⟩
  · intro b
    rw [hother _ (by simp)]
    exact h.buckets b
  · intro b
    obtain ⟨l,hl,hmem⟩ := h.lists b
    rw [hnext,hcommitted,hkey]
    exact ⟨l,hl,fun n hn hidx hmark => hmem n hn hidx (hmarks _ hmark)⟩
  · intro y m hy hm
    rw [hptr] at hm
    have hy : Published s y := by
      cases y with
      | bucket => trivial
      | node => exact hcommitted.subset hy
    obtain ⟨hmem,hhome,hkeys⟩ := h.order y m hy hm
    refine ⟨hcommitted ▸ hmem,?_,?_⟩
    · cases y <;> simpa [home,hkey] using hhome
    · intro n hn
      rw [hkey]
      exact ⟨(hkeys n hn).1,fun hmark => (hkeys n hn).2 (hmarks _ hmark)⟩
  · rw [hcommitted,hsame]
    exact h.made
  · intro n
    rw [hretired,hcommitted,Finset.mem_union,Finset.mem_singleton,h.retired]
    by_cases hn : n = c
    · simp [hn,hc,hself]
    · simp [hn,hother (.node n) (by simpa using hn)]

theorem Core.extend (h : Core T s) {marks : Bool} (hx : Published s x)
    (hword : s.word x = ⟨r,false⟩)
    (hn : n ∉ s.committed) (hmade : n < s.made) (hnword : s.word (.node n) = ⟨r,false⟩)
    (hhome : T.idx (s.key n) = home T s x)
    (hbelow : ∀ p, x = .node p → s.key p ≤ s.key n ∧ (marks = false → s.key p < s.key n))
    (habove : ∀ c, r = some c → s.key n < s.key c) (hbucket : ∀ b, x = .bucket b → marks = false)
    (hcommitted : s'.committed = s.committed ∪ {n})
    (hretired : ∀ m, m ∈ s'.retired ↔ m ∈ s.retired ∨ marks = true ∧ x = .node m)
    (hsame : s' = { s with
      word := update s.word x ⟨some n,marks⟩
      committed := s'.committed
      retired := s'.retired
      thread := s'.thread }) : Core T s' := by
  have hself : s'.word x = ⟨some n,marks⟩ := by rw [hsame]; exact update_self _ _ _
  have hother : ∀ y, y ≠ x → s'.word y = s.word y := fun y hy => by
    rw [hsame]
    exact update_of_ne hy _ _
  have hmem : ∀ m, m ∈ s'.committed ↔ m ∈ s.committed ∨ m = n := fun m => by
    rw [hcommitted,Finset.mem_union,Finset.mem_singleton]
  have hkey : s'.key = s.key := by rw [hsame]
  have hne : .node n ≠ x := by
    rintro rfl
    exact hn hx
  have hmark : (s.word x).mark = false := by rw [hword]
  have hmarks : ∀ y, (s'.word y).mark = false → (s.word y).mark = false := by
    intro y
    by_cases hy : y = x
    · exact fun _ => hy ▸ hmark
    · rw [hother y hy]
      exact id
  have hnext : ∀ y, y ≠ x → s'.next y = s.next y := fun y hy => by
    rw [State.next,hother y hy]
    rfl
  have hhomes : ∀ y, home T s' y = home T s y := fun y => by
    cases y <;> simp [home,hkey]
  refine ⟨?_,?_,?_,?_,?_⟩
  · intro b
    by_cases hb : .bucket b = x
    · rw [hb,hself]
      exact hbucket b hb.symm
    · rw [hother _ hb]
      exact h.buckets b
  · intro b
    rw [hkey]
    by_cases hb : b = home T s x
    · subst hb
      obtain ⟨l,hl,hxl,hlive⟩ := h.mem_list hx hmark
      have hlink : s'.next x = some (.node n) := by rw [State.next,hself]; rfl
      have hnnext : s'.next (.node n) = s.next x := by
        rw [hnext _ hne,State.next,State.next,hnword,hword]
      obtain ⟨l',hl',hnl,hkeep⟩ := hl.insert hxl hlink hnnext fun y _ hy => hnext y hy
      refine ⟨l',hl',?_⟩
      intro m hm hidx hmark'
      rcases (hmem m).mp hm with hm | rfl
      · exact hkeep _ (hlive m hm hidx (hmarks _ hmark'))
      · exact hnl
    · obtain ⟨l,hl,hlive⟩ := h.lists b
      refine ⟨l,hl.congr fun y hy => hnext y ?_,?_⟩
      · rintro rfl
        exact hb (h.published hl y hy).2.symm
      · intro m hm hidx hmark'
        rcases (hmem m).mp hm with hm | rfl
        · exact hlive m hm hidx (hmarks _ hmark')
        · exact absurd (hidx.symm.trans hhome) hb
  · intro y m hy hptr
    by_cases hyx : y = x
    · subst hyx
      rw [hself] at hptr
      cases hptr
      refine ⟨(hmem n).mpr (.inr rfl),?_,?_⟩
      · rw [hkey,hhomes]
        exact hhome
      · intro p hp
        subst hp
        rw [hkey,hself]
        exact hbelow p rfl
    · rw [hother y hyx] at hptr
      by_cases hyn : y = .node n
      · -- What followed `x` now follows the new node.
        subst hyn
        rw [hnword] at hptr
        obtain ⟨hm,hxm⟩ := h.order x m hx (by rw [hword]; exact hptr)
        refine ⟨(hmem m).mpr (.inl hm),?_,?_⟩
        · rw [hkey,hhomes]
          exact hxm.1.trans hhome.symm
        · intro p hp
          cases hp
          rw [hkey]
          exact ⟨(habove m hptr).le,fun _ => habove m hptr⟩
      · have hy : Published s y := by
          cases y with
          | bucket => trivial
          | node k =>
            rcases (hmem k).mp hy with hk | rfl
            · exact hk
            · exact absurd rfl hyn
        obtain ⟨hm,hhome',hkeys⟩ := h.order y m hy hptr
        refine ⟨(hmem m).mpr (.inl hm),?_,?_⟩
        · rw [hkey,hhomes]
          exact hhome'
        · intro p hp
          rw [hkey,hother _ (hp ▸ hyx)]
          exact hkeys p hp
  · intro m hm
    have hmade' : s'.made = s.made := by rw [hsame]
    rw [hmade']
    rcases (hmem m).mp hm with hm | rfl
    · exact h.made m hm
    · exact hmade
  · intro m
    rw [hretired,hmem,h.retired]
    by_cases hm : x = .node m
    · subst hm
      rw [hself,hword]
      have hm : m ∈ s.committed := hx
      simp [hm]
    · rw [hother _ (Ne.symm hm)]
      by_cases hmn : m = n
      · subst hmn
        simp [hn,hnword,hm]
      · simp [hmn,hm]

end Montage.LfHashTable
