import Montage.SSHashTable.Model
import Mathlib.Data.Nat.Log
import Mathlib.Data.Finset.Card
import Mathlib.Algebra.Group.Int.Defs

namespace Montage.SSHashTable
open Library Function List

theorem reverse_loop_bit (i : Nat) (hi : i ≤ 64) (ans n : BitVec 64) :
    (reverseLoop i ans n).getLsbD 0 = (ans.getLsbD 0 || decide (0 < i) && n.getLsbD (i - 1)) := by
  induction i generalizing ans n with
  | zero => simp [reverseLoop]
  | succ i ih =>
    rw [reverseLoop,ih (by omega)]
    cases i with
    | zero => simp
    | succ i => simp [Nat.add_comm 1 i]

theorem reverse_bits_bit (n : BitVec 64) : (reverseBits n).getLsbD 0 = n.getLsbD 63 := by
  rw [reverseBits,reverse_loop_bit 64 le_rfl]
  simp

theorem so_regularkey_odd (key : BitVec 64) : (soRegularkey key).getLsbD 0 = true := by
  rw [soRegularkey,reverse_bits_bit]
  simp

theorem so_dummykey_even {bucket : Nat} (h : bucket < 2 ^ 63) :
    (soDummykey bucket).getLsbD 0 = false := by
  rw [soDummykey,reverse_bits_bit,BitVec.getLsbD_ofNat,Nat.testBit_lt_two_pow h]
  rfl

theorem get_parent_lt {bucket : Nat} (h : bucket ≠ 0) : getParent bucket < bucket := by
  rw [getParent,if_neg h]
  have := Nat.two_pow_pos bucket.log2
  omega

variable {K V : Type}

def State.nxt (s : State K V) (c : Cell) : Option Cell := (s.cell c).ptr.map Cell.next

structure Lists (s : State K V) (c : Cell) (l : List Addr) : Prop where
  chain : Chain s.nxt (some c) (c :: l.map Cell.next)
  unmarked : ∀ d ∈ c :: l.map Cell.next, (s.cell d).mark = false

variable {s s' : State K V} {c head : Cell} {l l1 l2 : List Addr} {a node : Addr} {so : BitVec 64}
  {key : K} {rounds i : Nat}

theorem Lists.rest (h : Lists s c l) : Chain s.nxt (s.nxt c) (l.map Cell.next) := by
  cases h.chain with
  | cons _ rest => exact rest

theorem Lists.first (h : Lists s c l) : (s.cell c).ptr = l.head? := by
  have hfirst := h.rest.first
  rw [head?_map,State.nxt] at hfirst
  exact Option.map_injective (fun _ _ he => Cell.next.inj he) hfirst

theorem Lists.tail (h : Lists s c (a :: l)) : Lists s (.next a) l := by
  have hrest := h.rest
  have hc : s.nxt c = some (.next a) := by
    rw [State.nxt,h.first]
    rfl
  rw [hc] at hrest
  exact ⟨hrest,fun d hd => h.unmarked d (mem_cons_of_mem _ hd)⟩

def Matches [Inhabited K] (s : State K V) (so : BitVec 64) (key : K) (a : Addr) : Prop :=
  (s.node a).soK = so ∧ s.getKey a = key

/-- Where `list_find` stops: the nodes passed, and the others. -/
structure Stops [Inhabited K] (s : State K V) (c : Cell) (l : List Addr) (so : BitVec 64) (key : K)
    (r : Found) (before after : List Addr) : Prop where
  list : l = before ++ after
  prev : ∃ cs, c :: before.map Cell.next = cs ++ [r.prev]
  curr : r.curr = after.head?
  passed : ∀ a ∈ before, (s.node a).soK ≤ so ∧ ¬Matches s so key a
  found : r.found = true → ∃ a, after.head? = some a ∧ Matches s so key a
  absent : r.found = false → ∀ a, after.head? = some a → so < (s.node a).soK

theorem find_loop_ok [DecidableEq K] [Inhabited K] (h : Lists s c l) (hr : l.length < rounds) :
    ∃ r before after, findLoop head so key rounds s c (s.cell c).ptr = .ok (s,r) ∧
      Stops s c l so key r before after := by
  induction l generalizing c rounds with
  | nil =>
    obtain ⟨rounds,rfl⟩ : ∃ n, rounds = n + 1 := ⟨rounds - 1,by simp at hr; omega⟩
    refine ⟨⟨false,c,none⟩,[],[],?_,rfl,⟨[],rfl⟩,rfl,?_,?_,?_⟩
    · rw [h.first]
      rfl
    all_goals simp
  | cons a l ih =>
    obtain ⟨rounds,rfl⟩ : ∃ n, rounds = n + 1 := ⟨rounds - 1,by simp at hr; omega⟩
    have hmark : (s.cell c).mark = false := h.unmarked c mem_cons_self
    have hnext : (s.cell (.next a)).mark = false :=
      h.unmarked _ (mem_cons_of_mem _ mem_cons_self)
    have hcell : ¬s.cell c ≠ ⟨some a,false⟩ := by
      rw [not_not,← hmark,show some a = (s.cell c).ptr from h.first.symm]
    rw [h.first,head?_cons]
    simp only [findLoop,if_neg hcell,hnext,Bool.false_eq_true,if_false]
    by_cases hgt : (s.node a).soK > so
    · rw [if_pos hgt]
      refine ⟨_,[],a :: l,rfl,rfl,⟨[],rfl⟩,rfl,by simp,by simp,?_⟩
      rintro - b hb
      cases hb
      exact hgt
    · rw [if_neg hgt]
      by_cases hmatch : (s.node a).soK = so ∧ s.getKey a = key
      · rw [if_pos hmatch]
        exact ⟨_,[],a :: l,rfl,rfl,⟨[],rfl⟩,rfl,by simp,fun _ => ⟨a,rfl,hmatch⟩,by simp⟩
      · rw [if_neg hmatch]
        obtain ⟨r,before,after,hok,hstops⟩ := ih h.tail (by simpa using hr)
        obtain ⟨cs,hcs⟩ := hstops.prev
        refine ⟨r,a :: before,after,hok,by rw [hstops.list]; rfl,⟨c :: cs,by simp [hcs]⟩,
          hstops.curr,?_,hstops.found,hstops.absent⟩
        intro b hb
        rcases mem_cons.mp hb with rfl | hb
        · exact ⟨BitVec.not_lt.mp hgt,hmatch⟩
        · exact hstops.passed b hb

section Writes
variable {before after : List Addr} {prev : Cell} {cs : List Cell}

theorem Lists.congr (h : Lists s c l) (hsame : ∀ d ∈ c :: l.map Cell.next, s'.cell d = s.cell d) :
    Lists s' c l where
  chain := h.chain.congr fun d hd => by rw [State.nxt,State.nxt,hsame d hd]
  unmarked := fun d hd => by
    rw [hsame d hd]
    exact h.unmarked d hd

theorem nxt_set (s : State K V) (d : Cell) (p : Option Addr) (mark : Bool) :
    (s.set d p mark).nxt = update s.nxt d (p.map Cell.next) := by
  funext e
  by_cases he : e = d
  · subst he
    simp [State.nxt,State.set]
  · simp [State.nxt,State.set,he]

theorem Lists.cells (h : Lists s c (before ++ after))
    (hprev : c :: before.map Cell.next = cs ++ [prev]) :
    Chain s.nxt (some c) (cs ++ prev :: after.map Cell.next) := by
  have hchain := h.chain
  rwa [map_append,← cons_append,hprev,append_assoc,singleton_append] at hchain

theorem Lists.link (h : Lists s c (before ++ after))
    (hprev : c :: before.map Cell.next = cs ++ [prev])
    (hnode : Cell.next node ∉ c :: (before ++ after).map Cell.next) :
    Lists ((s.set (.next node) after.head? false).set prev (some node) false) c
      (before ++ node :: after) := by
  have hchain := h.cells hprev
  have hcells : c :: (before ++ node :: after).map Cell.next =
      cs ++ prev :: .next node :: after.map Cell.next := by
    rw [map_append,← cons_append,hprev,append_assoc,singleton_append,
      map_cons]
  have hall : c :: (before ++ after).map Cell.next = cs ++ prev :: after.map Cell.next := by
    rw [map_append,← cons_append,hprev,append_assoc,singleton_append]
  rw [hall] at hnode
  have hne : Cell.next node ≠ prev := fun he => hnode (by simp [he])
  refine ⟨?_,?_⟩
  · rw [hcells,nxt_set,nxt_set]
    refine hchain.insert_after (update_self ..) ?_ ?_
    · rw [update_of_ne hne,update_self,hchain.split.first,head?_map]
    · intro d hd
      have hdn : d ≠ Cell.next node := by
        rintro rfl
        rcases mem_append.mp hd with hd | hd
        · exact hnode (mem_append_left _ hd)
        · exact hnode (mem_append_right _ (mem_cons_of_mem _ hd))
      rw [update_of_ne (hchain.others d hd),update_of_ne hdn]
  · intro d hd
    by_cases hdp : d = prev
    · simp [State.set,hdp]
    · by_cases hdn : d = Cell.next node
      · simp [State.set,hdn,hne]
      · have hold : d ∈ c :: (before ++ after).map Cell.next := by
          rw [hcells] at hd
          rw [hall]
          simp only [mem_append,mem_cons] at hd ⊢
          tauto
        simpa [State.set,hdp,hdn] using h.unmarked d hold

theorem Lists.unlink (h : Lists s c (before ++ a :: after))
    (hprev : c :: before.map Cell.next = cs ++ [prev]) :
    Lists ((s.set (.next a) (s.cell (.next a)).ptr true).set prev (s.cell (.next a)).ptr false) c
      (before ++ after) := by
  have hchain := h.cells hprev
  rw [map_cons] at hchain
  have hcells : c :: (before ++ after).map Cell.next = cs ++ prev :: after.map Cell.next := by
    rw [map_append,← cons_append,hprev,append_assoc,singleton_append]
  have hne : ∀ d ∈ cs ++ prev :: after.map Cell.next, d ≠ Cell.next a := by
    intro d hd
    have hchain' : Chain s.nxt (some c) ((cs ++ [prev]) ++ .next a :: after.map Cell.next) := by
      rwa [append_assoc]
    refine hchain'.others d ?_
    simp only [mem_append,mem_cons,not_mem_nil,or_false] at hd ⊢
    tauto
  refine ⟨?_,?_⟩
  · rw [hcells,nxt_set,nxt_set]
    refine hchain.remove_after (update_self ..) ?_
    intro d hd
    have hdp : d ≠ prev := by
      refine hchain.others d ?_
      simp only [mem_append,mem_cons] at hd ⊢
      tauto
    have hda : d ≠ Cell.next a := hne d (by
      simp only [mem_append,mem_cons] at hd ⊢
      tauto)
    rw [update_of_ne hdp,update_of_ne hda]
  · intro d hd
    rw [hcells] at hd
    have hda := hne d hd
    have hold : d ∈ c :: (before ++ a :: after).map Cell.next := by
      rw [map_append,← cons_append,hprev]
      simp only [mem_append,mem_cons,map_cons,not_mem_nil,or_false] at hd ⊢
      tauto
    by_cases hdp : d = prev
    · simp [State.set,hdp]
    · simpa [State.set,hdp,hda] using h.unmarked d hold

end Writes

end Montage.SSHashTable
