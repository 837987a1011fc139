import Montage.Library.Runs
import Montage.HTMvEBTree.Delete

namespace Montage.HTMvEBTree
open Library Library.Clusters Option

/-- A call, and what the variable `inserted` holds in it before it is assigned. -/
structure Call where
  op : Op
  junk : Tree → Nat → Bool

def perform (kMap : KMap) (t : Tree) (c : Call) : Option Tree :=
  (t.call kMap c.junk c.op).map Prod.fst

def effect (S : Set Nat) : Op → Set Nat
  | .insert x => insert x S
  | .del x => S \ {x}

def contents (calls : List Call) : Set Nat := calls.foldl (fun S c => effect S c.op) ∅

def kMapOf (k : Nat) : KMap := populateMaps k (2 ^ k) []

def root (k : Nat) : Tree := make (kMapOf k) k (2 ^ k)

variable {kMap : KMap} {t : Tree} {S S' : Set Nat} {k x : Nat} {c : Call} {calls : List Call}

theorem root_rep (hk : 1 ≤ k) : (root k).Rep (kMapOf k) k ∅ :=
  make_rep (fun _ hj => populated_get hj hk) hk (le_refl k)

theorem Bounds.eq_of_two {min max : Option Nat} (h : Bounds 1 S min max) (h' : Bounds 1 S' min max) :
    S ⊆ S' := by
  intro x hx
  have hx2 : x < 2 := h.within x hx
  cases min with
  | none =>
    have hempty : S = ∅ := h.least
    rw [hempty] at hx
    exact absurd hx (Set.notMem_empty x)
  | some a =>
    cases max with
    | none =>
      have hempty : S = ∅ := h.greatest
      rw [hempty] at hx
      exact absurd hx (Set.notMem_empty x)
    | some b =>
      have hle : a ≤ x := h.least.2 hx
      have hge : x ≤ b := h.greatest.2 hx
      have hb : b < 2 := h.within b h.greatest.1
      rcases (show x = a ∨ x = b by omega) with rfl | rfl
      · exact h'.least.1
      · exact h'.greatest.1

theorem Tree.Rep.subset (h : t.Rep kMap k S) (h' : t.Rep kMap k S') : S ⊆ S' := by
  induction t generalizing k S S' with
  | base =>
    obtain ⟨rfl,hbounds⟩ := h
    exact hbounds.eq_of_two h'.2
  | node _ min _ _ _ _ ihClusters =>
    obtain ⟨-,hbounds,-,hclusters⟩ := h
    obtain ⟨-,hbounds',-,hclusters'⟩ := h'
    intro x hx
    by_cases hmin : some x = min
    · exact hbounds'.mem_of_bound (.inl hmin)
    · obtain ⟨hh,hl,hsplit⟩ := split_number (hbounds.within x hx)
      have hpart : x % 2 ^ (k / 2) ∈ part (2 ^ (k / 2)) (x / 2 ^ (k / 2)) (rest S min) :=
        mem_index (Nat.two_pow_pos _) ⟨hx,hmin⟩
      have hpart' := ihClusters _ (hclusters _ hh) (hclusters' _ hh) hpart
      have hmem := hpart'.2.1
      rw [hsplit] at hmem
      exact hmem

theorem Tree.Rep.unique (h : t.Rep kMap k S) : t.Rep kMap k S' ↔ S' = S := by
  constructor
  · intro h'
    exact Set.Subset.antisymm (h'.subset h) (h.subset h')
  · rintro rfl
    exact h

theorem Tree.Rep.perform (h : t.Rep kMap k S) (hx : c.op.arg < 2 ^ k) :
    ∃ t', perform kMap t c = some t' ∧ t'.Rep kMap k (effect S c.op) := by
  obtain ⟨op,junk⟩ := c
  cases op with
  | insert =>
    obtain ⟨t',b,hinsert,hrep,-⟩ := h.inserts hx
    exact ⟨t',map_eq_some_iff.mpr ⟨_,hinsert,rfl⟩,hrep⟩
  | del =>
    obtain ⟨t',b,hdel,hrep,-⟩ := h.deletes hx
    exact ⟨t',map_eq_some_iff.mpr ⟨_,hdel,rfl⟩,hrep⟩

theorem Tree.Rep.play (h : t.Rep kMap k S) (hcalls : ∀ c ∈ calls, c.op.arg < 2 ^ k) :
    ∃ t', Library.play (HTMvEBTree.perform kMap) t calls = some t' ∧
      t'.Rep kMap k (calls.foldl (fun S c => effect S c.op) S) := by
  induction calls generalizing t S with
  | nil => exact ⟨t,rfl,h⟩
  | cons c _ ih =>
    obtain ⟨t',ht',hrep⟩ := h.perform (hcalls c List.mem_cons_self)
    obtain ⟨t'',ht'',hrep'⟩ := ih hrep fun c' hc' => hcalls c' (List.mem_cons_of_mem c hc')
    refine ⟨t'',?_,hrep'⟩
    rw [Library.play,ht']
    exact ht''

/-- After every sequence of calls, in none of which an argument has been outside of a universe, the
tree represents the set and no other, and `del` says whether its argument was in it. -/
theorem represents_contents (k : Nat) (hk : 1 ≤ k) (calls : List Call)
    (hcalls : ∀ c ∈ calls, c.op.arg < 2 ^ k) :
    ∃ t, Library.play (perform (kMapOf k)) (root k) calls = some t ∧
      (∀ S, t.Rep (kMapOf k) k S ↔ S = contents calls) ∧
      ∀ x < 2 ^ k, ∃ t' erased, t.del (kMapOf k) x = some (t',erased) ∧
        (erased = true ↔ x ∈ contents calls) := by
  obtain ⟨t,ht,hrep⟩ := (root_rep hk).play hcalls
  refine ⟨t,ht,fun S => hrep.unique,?_⟩
  intro x hx
  obtain ⟨t',erased,hdel,-,herased⟩ := hrep.deletes hx
  exact ⟨t',erased,hdel,herased⟩

/-- Universe 8, whose clusters have size 2 and whose summary has size 4. -/
theorem represents_contents_eight :
    ∃ t, Library.play (perform (kMapOf 3)) (root 3)
        [⟨.insert 5,fun _ _ => false⟩,⟨.insert 2,fun _ _ => false⟩,⟨.del 6,fun _ _ => false⟩,
          ⟨.insert 7,fun _ _ => true⟩,⟨.del 2,fun _ _ => false⟩] = some t ∧
      t.Rep (kMapOf 3) 3 {5,7} := by
  obtain ⟨t,ht,hrep,-⟩ := represents_contents 3 (by decide)
    [⟨.insert 5,fun _ _ => false⟩,⟨.insert 2,fun _ _ => false⟩,⟨.del 6,fun _ _ => false⟩,
      ⟨.insert 7,fun _ _ => true⟩,⟨.del 2,fun _ _ => false⟩] (by simp [Op.arg])
  refine ⟨t,ht,(hrep _).mpr ?_⟩
  ext x
  simp only [contents,List.foldl,effect,Set.mem_sdiff,Set.mem_insert_iff,Set.mem_singleton_iff,
    Set.mem_empty_iff_false,or_false]
  omega

/-- `insert` says whether its argument was new, whatever the variable holds, exactly if it does not
return the variable unassigned: that happens if the recursion ends in a universe of size 2 with the
argument 1 and the only element 0. -/
theorem insert_reports_iff (k : Nat) (hk : 1 ≤ k) (calls : List Call)
    (hcalls : ∀ c ∈ calls, c.op.arg < 2 ^ k) (t : Tree)
    (ht : Library.play (perform (kMapOf k)) (root k) calls = some t) (x : Nat) (hx : x < 2 ^ k) :
    (∀ junk, ∃ t' inserted, t.insert (kMapOf k) junk x = some (t',inserted) ∧
      (inserted = true ↔ x ∉ contents calls)) ↔ t.unassigned (kMapOf k) x = false := by
  obtain ⟨t0,ht0,hrep⟩ := (root_rep hk).play hcalls
  obtain rfl : t = t0 := some.inj (ht.symm.trans ht0)
  constructor
  · intro h
    by_contra hunassigned
    rw [Bool.not_eq_false] at hunassigned
    -- a variable that holds false
    obtain ⟨t',inserted,hinsert,hiff⟩ := h fun _ _ => false
    obtain ⟨t'',b,hinsert',-,-,hjunk⟩ := hrep.inserts hx
    obtain ⟨hnew,t1,x1,hb⟩ := hjunk hunassigned
    rw [hinsert] at hinsert'
    cases hinsert'
    have htrue := hiff.mpr hnew
    rw [hb] at htrue
    cases htrue
  · intro hassigned junk
    obtain ⟨t',b,hinsert,-,hflag,-⟩ := hrep.inserts hx
    exact ⟨t',b,hinsert,hflag hassigned⟩

theorem insert_reports_iff_four :
    ∃ t, Library.play (perform (kMapOf 2)) (root 2)
        [⟨.insert 0,fun _ _ => false⟩,⟨.insert 3,fun _ _ => false⟩] = some t ∧
      ∀ junk, ∃ t' inserted, t.insert (kMapOf 2) junk 2 = some (t',inserted) ∧
        (inserted = true ↔
          2 ∉ contents [⟨.insert 0,fun _ _ => false⟩,⟨.insert 3,fun _ _ => false⟩]) := by
  obtain ⟨t,ht,hassigned⟩ : ∃ t, Library.play (perform (kMapOf 2)) (root 2)
      [⟨.insert 0,fun _ _ => false⟩,⟨.insert 3,fun _ _ => false⟩] = some t ∧
        t.unassigned (kMapOf 2) 2 = false := map_eq_some_iff.mp (by decide +kernel)
  exact ⟨t,ht,(insert_reports_iff 2 (by decide) _ (by simp [Op.arg]) t ht 2 (by decide)).mpr
    hassigned⟩

/-- Universe 4: 3 is inserted into the cluster that has 2 only. -/
theorem insert_three_unreported :
    ∃ t, Library.play (perform (kMapOf 2)) (root 2)
        [⟨.insert 0,fun _ _ => false⟩,⟨.insert 2,fun _ _ => false⟩] = some t ∧
      3 ∉ contents [⟨.insert 0,fun _ _ => false⟩,⟨.insert 2,fun _ _ => false⟩] ∧
      ∃ t', t.insert (kMapOf 2) (fun _ _ => false) 3 = some (t',false) := by
  obtain ⟨t,ht,hinsert⟩ : ∃ t, Library.play (perform (kMapOf 2)) (root 2)
      [⟨.insert 0,fun _ _ => false⟩,⟨.insert 2,fun _ _ => false⟩] = some t ∧
        (t.insert (kMapOf 2) (fun _ _ => false) 3).map Prod.snd = some false :=
    map_eq_some_iff.mp (by decide +kernel)
  obtain ⟨⟨t',b⟩,hinsert,hb⟩ := map_eq_some_iff.mp hinsert
  cases hb
  exact ⟨t,ht,by simp [contents,effect],t',hinsert⟩

end Montage.HTMvEBTree
