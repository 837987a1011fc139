import Montage.Library.Rings
import Montage.CircBuffer.Model
import Mathlib.Data.List.GetD

namespace Montage.CircBuffer
open Library List Function

variable {T : Type}

/-- The nodes behind the tail, in the order of `next_node`: first the free ones, then, from the head
on, the full ones. -/
structure Layout (s : State T) (free full : List Ptr) : Prop where
  ring : Ring s.succ s.tail (free ++ full)
  head : s.head = full.headD s.tail
  valid : ∀ p ∈ s.tail :: (free ++ full), s.Valid p
  cap : s.cap.toNat = free.length + full.length + 1

def State.payloads (s : State T) (ps : List Ptr) : List T := ps.map fun p => (s.node p).payload

def State.fill (s : State T) (x : T) : State T :=
  { s with node := update s.node s.tail { s.node s.tail with payload := x } }

def State.redirect (s : State T) : State T :=
  { s with node := update s.node s.tail { s.node s.tail with next := some ⟨s.lengths.length,0⟩ } }

def State.extend [Inhabited T] (s : State T) (z : Ptr) : State T :=
  { s with
    node := update (fun p => if p.chunk = s.lengths.length then ⟨default,none⟩ else s.node p)
      ⟨s.lengths.length,s.cap.toNat - 1⟩ ⟨default,some z⟩
    lengths := s.lengths ++ [s.cap.toNat] }

def State.splice [Inhabited T] (s : State T) : State T :=
  { s.redirect.extend s.head with cap := s.cap <<< 1, tail := ⟨s.lengths.length,0⟩ }

def inner (c m : Nat) : List Ptr := (range' 1 (m - 1)).map (Ptr.mk c)

section Cells
variable {s s' : State T} {free full : List Ptr} {p z : Ptr} {n : Node T} {x : T}

theorem State.load_valid (h : s.Valid p) : s.load p = some (s.node p) := if_pos h

theorem State.store_valid (h : s.Valid p) (n : Node T) :
    s.store p n = some { s with node := update s.node p n } := if_pos h

theorem State.nextNode_valid (h : s.Valid p) : s.nextNode p = some (s.succ p) := if_pos h

theorem succ_update (s : State T) (p : Ptr) (hn : n.next = (s.node p).next) :
    State.succ { s with node := update s.node p n } = s.succ := by
  funext q
  by_cases hq : q = p <;> simp [State.succ,hq,hn]

theorem payloads_update (h : p ∉ full) :
    State.payloads { s with node := update s.node p n } full = s.payloads full := by
  refine map_congr_left fun q hq => ?_
  have hne : q ≠ p := fun heq => h (heq ▸ hq)
  simp [hne]

theorem fill_succ (s : State T) (x : T) : (s.fill x).succ = s.succ := succ_update s s.tail rfl

theorem Layout.free_ne_head (h : Layout s (p :: free) full) : p ≠ s.head := by
  have hnodup := h.ring.nodup
  rw [h.head]
  cases full <;> grind

theorem Layout.next_is_head (h : Layout s [] full) : s.succ s.tail = s.head := by
  have hrow := h.ring.row
  rw [h.head]
  cases full with
  | nil => exact hrow
  | cons p full => exact hrow.1

section
variable (h : Layout s free full)
include h

theorem Layout.tail_not_full : s.tail ∉ full :=
  fun hmem => (nodup_cons.mp h.ring.nodup).1 (mem_append_right _ hmem)

theorem Layout.tail_valid : s.Valid s.tail := h.valid _ mem_cons_self

theorem Layout.fill (x : T) : Layout (s.fill x) free full := by
  refine ⟨?_,h.head,h.valid,h.cap⟩
  rw [fill_succ]
  exact h.ring

theorem Layout.fill_payloads (x : T) :
    (s.fill x).payloads (full ++ [s.tail]) = s.payloads full ++ [x] := by
  have hfull : (s.fill x).payloads full = s.payloads full := payloads_update h.tail_not_full
  rw [← hfull]
  simp [State.payloads,State.fill]

theorem push_eq [Inhabited T] (x : T) : s.push x = if s.succ s.tail = s.head then (s.fill x).grow
      else some { s.fill x with tail := s.succ s.tail } := by
  have hnext : (s.fill x).nextNode (s.fill x).tail = some (s.succ s.tail) := by
    rw [State.nextNode_valid (h.fill x).tail_valid,fill_succ]
    rfl
  unfold State.push
  rw [State.load_valid h.tail_valid]
  change (s.store s.tail { s.node s.tail with payload := x }).bind _ = _
  rw [State.store_valid h.tail_valid]
  change ((s.fill x).nextNode (s.fill x).tail).bind _ = _
  rw [hnext]
  rfl

end

theorem push_free [Inhabited T] (h : Layout s (p :: free) full) (x : T) :
    ∃ s', s.push x = some s' ∧ Layout s' free (full ++ [s.tail]) ∧
      s'.payloads (full ++ [s.tail]) = s.payloads full ++ [x] := by
  have hp : s.succ s.tail = p := h.ring.row.1
  refine ⟨{ s.fill x with tail := p },?_,⟨?_,?_,?_,?_⟩,h.fill_payloads x⟩
  · rw [push_eq h,hp,if_neg h.free_ne_head]
  · rw [← append_assoc]
    exact (h.fill x).ring.advance
  · change s.head = _
    rw [h.head]
    cases full <;> rfl
  · have hvalid := h.valid
    intro q hq
    exact hvalid q (by grind)
  · have hcap := h.cap
    simp only [length_append,length_cons,length_nil] at hcap ⊢
    exact hcap.trans (by omega)

theorem State.Valid.chunk_lt (h : s.Valid p) : p.chunk < s.lengths.length := by
  by_contra hge
  rw [State.Valid,getD_eq_default _ _ (Nat.not_lt.mp hge)] at h
  exact Nat.not_lt_zero _ h

section Arrays
variable [Inhabited T]

theorem State.Valid.extend (h : s.Valid p) (z : Ptr) : (s.extend z).Valid p := by
  have hsame : (s.extend z).lengths.getD p.chunk 0 = s.lengths.getD p.chunk 0 :=
    getD_append _ _ _ _ h.chunk_lt
  rw [State.Valid,hsame]
  exact h

theorem extend_valid (s : State T) (z : Ptr) (hi : i < s.cap.toNat) :
    (s.extend z).Valid ⟨s.lengths.length,i⟩ := by
  simp [State.Valid,State.extend,hi]

theorem extend_node (z : Ptr) (hp : s.Valid p) : (s.extend z).node p = s.node p := by
  have hchunk := Nat.ne_of_lt hp.chunk_lt
  have hlast : p ≠ ⟨s.lengths.length,s.cap.toNat - 1⟩ := fun heq => hchunk (congrArg Ptr.chunk heq)
  simp only [State.extend,update_of_ne hlast,if_neg hchunk]

theorem array_row {next : Ptr → Ptr} {c i m : Nat}
    (hnext : ∀ j, j < i + m → next ⟨c,j⟩ = ⟨c,j + 1⟩) (hlast : next ⟨c,i + m⟩ = z) :
    Row next ⟨c,i⟩ ((range' (i + 1) m).map (Ptr.mk c)) z := by
  induction m generalizing i with
  | zero => exact hlast
  | succ m ih =>
    refine ⟨hnext i (by omega),ih (fun j hj => hnext j (by omega)) ?_⟩
    rw [← hlast,Nat.add_right_comm,Nat.add_assoc i m 1]

theorem extend_row (s : State T) (z : Ptr) :
    Row (s.extend z).succ ⟨s.lengths.length,0⟩ (inner s.lengths.length s.cap.toNat) z := by
  refine array_row (i := 0) (fun j hj => ?_) ?_
  · have hlast : (⟨s.lengths.length,j⟩ : Ptr) ≠ ⟨s.lengths.length,s.cap.toNat - 1⟩ := by
      intro heq
      cases heq
      omega
    simp [State.succ,State.extend,update_of_ne hlast]
  · simp [State.succ,State.extend]

theorem array_nodup (c m : Nat) : ((⟨c,0⟩ : Ptr) :: inner c m).Nodup := by
  have hmap : (⟨c,0⟩ : Ptr) :: inner c m = (range' 0 (m - 1 + 1)).map (Ptr.mk c) := rfl
  rw [hmap]
  exact (nodup_range' ..).map fun a b heq => congrArg Ptr.index heq

theorem mem_array {c m : Nat} (hm : 0 < m) (hp : p ∈ (⟨c,0⟩ : Ptr) :: inner c m) :
    ∃ i < m, p = ⟨c,i⟩ := by
  rcases mem_cons.mp hp with rfl | hp
  · exact ⟨0,hm,rfl⟩
  · obtain ⟨i,hi,rfl⟩ := mem_map.mp hp
    exact ⟨i,by have := mem_range'_1.mp hi; omega,rfl⟩

theorem extend_eq (s : State T) (z : Ptr) (hcap : ¬s.cap.toInt < 0) (hpos : 0 < s.cap.toNat) :
    (s.newNodes.bind fun s' => s'.linkLast ⟨s.lengths.length,0⟩ z) = some (s.extend z) := by
  have hlast := extend_valid s z (Nat.sub_lt hpos Nat.one_pos)
  unfold State.Valid State.extend at hlast
  simp only [State.newNodes,State.linkLast,State.load,State.store,State.Valid,if_neg hcap,hlast,
    Nat.zero_add,Option.bind_eq_bind,Option.bind_some,if_true,State.extend]

theorem grow_throws (h : s.cap.toInt < 0) : s.grow = none := by
  unfold State.grow State.newNodes
  rw [if_pos h]
  rfl

theorem grow_eq (ht : s.Valid s.tail) (hcap : ¬s.cap.toInt < 0) (hpos : 0 < s.cap.toNat) :
    s.grow = some s.splice := by
  have htail : (s.redirect.extend s.head).Valid s.tail := State.Valid.extend (s := s.redirect) ht _
  have hlast : (s.redirect.extend s.head).Valid ⟨s.lengths.length,s.cap.toNat - 1⟩ :=
    extend_valid s.redirect s.head (Nat.sub_lt hpos Nat.one_pos)
  have hchunk : s.tail.chunk ≠ s.lengths.length := Nat.ne_of_lt ht.chunk_lt
  have hne : (⟨s.lengths.length,s.cap.toNat - 1⟩ : Ptr) ≠ s.tail :=
    fun heq => hchunk (congrArg Ptr.chunk heq).symm
  -- the tail is in an older array
  have hnode : update (fun p => if p.chunk = s.lengths.length then ⟨default,none⟩ else s.node p)
      s.tail { s.node s.tail with next := some ⟨s.lengths.length,0⟩ } =
      fun p => if p.chunk = s.lengths.length then ⟨default,none⟩ else s.redirect.node p := by
    funext p
    by_cases hp : p = s.tail <;> simp [State.redirect,hp,hchunk]
  unfold State.Valid State.extend State.redirect at htail hlast
  simp only [State.grow,State.newNodes,State.linkLast,State.load,State.store,State.Valid,if_neg hcap,
    if_neg hchunk,htail,hlast,Nat.zero_add,Option.bind_eq_bind,Option.bind_some,if_true,
    update_of_ne hne,State.splice,State.extend,hnode]
  rfl

theorem splice_tail (ht : s.Valid s.tail) :
    s.splice.node s.tail = { s.node s.tail with next := some ⟨s.lengths.length,0⟩ } := by
  have hvalid : s.redirect.Valid s.tail := ht
  exact (extend_node s.head hvalid).trans (update_self ..)

section
variable (h : Layout s [] full)
include h

theorem splice_node (hp : p ∈ full) : s.splice.node p = s.node p := by
  have hne : p ≠ s.tail := fun heq => h.tail_not_full (heq ▸ hp)
  have hvalid : s.redirect.Valid p := h.valid p (mem_cons_of_mem _ hp)
  exact (extend_node s.head hvalid).trans (update_of_ne hne _ _)

theorem splice_payloads : s.splice.payloads (full ++ [s.tail]) = s.payloads (full ++ [s.tail]) := by
  refine map_congr_left fun p hp => ?_
  rcases mem_append.mp hp with hp | hp
  · rw [splice_node h hp]
  · rw [mem_singleton.mp hp,splice_tail h.tail_valid]

/-- The new nodes stand between the tail and the head: a full ring has room again. -/
theorem Layout.splice (hsmall : s.cap.toNat < 2 ^ 31) :
    Layout s.splice (inner s.lengths.length s.cap.toNat) (full ++ [s.tail]) := by
  have hcap : s.cap.toNat = full.length + 1 := by simpa using h.cap
  have harray : ∀ p ∈ (⟨s.lengths.length,0⟩ : Ptr) :: inner s.lengths.length s.cap.toNat,
      ∃ i < s.cap.toNat, p = ⟨s.lengths.length,i⟩ := fun p => mem_array (by omega)
  refine ⟨h.ring.grow ?_ ?_ ?_ (array_nodup ..) ?_,?_,?_,?_⟩
  · intro p hp
    rw [State.succ,State.succ,splice_node h hp]
  · rw [State.succ,splice_tail h.tail_valid]
    rfl
  · rw [nil_append,← h.head]
    exact extend_row s.redirect s.head
  · intro p hp hin
    obtain ⟨i,-,rfl⟩ := harray p hp
    exact Nat.lt_irrefl _ (h.valid _ hin).chunk_lt
  · change s.head = _
    rw [h.head]
    cases full <;> rfl
  · intro p hp
    rw [← cons_append] at hp
    rcases mem_append.mp hp with hp | hp
    · obtain ⟨i,hi,rfl⟩ := harray p hp
      exact extend_valid s.redirect s.head hi
    · refine State.Valid.extend (s := s.redirect) (h.valid p ?_) s.head
      simpa [or_comm] using hp
  · change (s.cap <<< 1).toNat = _
    simp [inner,hcap,Nat.shiftLeft_eq]
    omega

theorem push_full (hsmall : s.cap.toNat < 2 ^ 31) (x : T) :
    ∃ s' free, s.push x = some s' ∧ Layout s' free (full ++ [s.tail]) ∧
      free.length = full.length ∧ s'.payloads (full ++ [s.tail]) = s.payloads full ++ [x] := by
  have hfill := h.fill x
  have hcap := h.cap
  have hint : ¬(s.fill x).cap.toInt < 0 := by
    change ¬s.cap.toInt < 0
    rw [BitVec.toInt_eq_toNat_of_lt (by omega)]
    omega
  have hlength : (inner s.lengths.length s.cap.toNat).length = full.length := by
    simp [inner,hcap]
  refine ⟨(s.fill x).splice,_,?_,hfill.splice hsmall,hlength,?_⟩
  · rw [push_eq h,if_pos h.next_is_head]
    exact grow_eq hfill.tail_valid hint (by change 0 < s.cap.toNat; omega)
  · rw [← h.fill_payloads x]
    exact splice_payloads hfill

theorem push_throws (hlarge : 2 ^ 31 ≤ s.cap.toNat) (x : T) : s.push x = none := by
  rw [push_eq h,if_pos h.next_is_head]
  refine grow_throws ?_
  change s.cap.toInt < 0
  rw [BitVec.toInt_eq_toNat_cond,if_neg (by omega)]
  omega

end

end Arrays

theorem Layout.pop (h : Layout s free (p :: full)) (hn : n.next = (s.node p).next) :
    s.head = p ∧ s.head ≠ s.tail ∧ s.Valid p ∧
      Layout { s with node := update s.node p n, head := s.succ p } (free ++ [p]) full := by
  have hhead : s.head = p := h.head
  have hlist : free ++ [p] ++ full = free ++ p :: full := by simp
  refine ⟨hhead,fun heq => h.tail_not_full (by simp [← heq,hhead]),h.valid p (by simp),?_,?_,?_,?_⟩
  · rw [hlist]
    exact (succ_update s p hn).symm ▸ h.ring
  · exact h.ring.next_of
  · rw [hlist]
    exact h.valid
  · have hcap := h.cap
    simp only [length_append,length_cons,length_nil] at hcap ⊢
    exact hcap.trans (by omega)

end Cells

section Calls
variable {s : State T} {q : List T} {x : T} {C : Nat}

/-- The buffer holds `q`. Its ring began with `C` nodes and has been doubled some times, but not
beyond the first size that is too large for an `int`. -/
def Holds (C : Nat) (s : State T) (q : List T) : Prop :=
  ∃ free full j, Layout s free full ∧ s.payloads full = q ∧ s.cap.toNat = C * 2 ^ j ∧
    ∀ k, 2 ^ 31 ≤ C * 2 ^ k → C * 2 ^ j ≤ C * 2 ^ k

/-- The condition under which a ring of `C` nodes can always grow to hold `q`. -/
def Roomy (C : Nat) (q : List T) : Prop := ∀ k, 2 ^ 31 ≤ C * 2 ^ k → q.length < C * 2 ^ k

theorem try_pop_eq (hne : s.head ≠ s.tail) (hvalid : s.Valid s.head) :
    s.tryPop = some ({ s with head := s.succ s.head },some (s.node s.head).payload) := by
  rw [State.tryPop,if_neg hne,State.load_valid hvalid,State.nextNode_valid hvalid]
  rfl

theorem try_pop_func_eq (hne : s.head ≠ s.tail) (hvalid : s.Valid s.head) (func : T → T) :
    s.tryPopFunc func = some
      ({ s with
        node := update s.node s.head
          { s.node s.head with payload := func (s.node s.head).payload }
        head := s.succ s.head },some (s.node s.head).payload) := by
  have hvalid' := hvalid
  unfold State.Valid at hvalid'
  simp only [State.tryPopFunc,State.load,State.store,State.nextNode,State.Valid,State.succ,if_neg hne,
    hvalid',if_true,Option.bind_eq_bind,Option.bind_some,update_self]

theorem Holds.pop (h : Holds C s (x :: q)) (y : T) :
    s.head ≠ s.tail ∧ s.Valid s.head ∧ (s.node s.head).payload = x ∧
      Holds C { s with
        node := update s.node s.head { s.node s.head with payload := y }
        head := s.succ s.head } q := by
  obtain ⟨free,full,j,hlayout,hq,htotal,hlimit⟩ := h
  cases full with
  | nil => cases hq
  | cons p full =>
    obtain ⟨rfl,rfl⟩ := cons.inj hq
    obtain ⟨hhead,hne,hvalid,hpop⟩ := hlayout.pop (n := { s.node p with payload := y }) rfl
    have hnodup := (nodup_cons.mp hlayout.ring.nodup).2.sublist (sublist_append_right _ _)
    rw [hhead] at hne ⊢
    exact ⟨hne,hvalid,rfl,free ++ [p],full,j,hpop,payloads_update (nodup_cons.mp hnodup).1,htotal,
      hlimit⟩

theorem Holds.empty (h : Holds C s ([] : List T)) : s.head = s.tail := by
  obtain ⟨free,full,j,hlayout,hq,-⟩ := h
  rw [hlayout.head,map_eq_nil_iff.mp hq]
  rfl

theorem init_holds [Inhabited T] {cap : BitVec 32} (hcap : 2 ≤ cap.toInt) :
    ∃ s : State T, init cap = some s ∧ Holds cap.toNat s [] := by
  have hsmall := BitVec.toInt_pos_iff.mp (Int.le_trans (by decide) hcap)
  have hnat : cap.toInt = cap.toNat := BitVec.toInt_eq_toNat_of_lt hsmall
  have hpos : 0 < cap.toNat := by omega
  refine ⟨_,extend_eq ⟨cap,⟨0,0⟩,⟨0,0⟩,fun _ => ⟨default,none⟩,[]⟩ ⟨0,0⟩ (by simp only; omega) hpos,
    inner 0 cap.toNat,[],0,⟨⟨?_,?_⟩,rfl,fun p hp => ?_,?_⟩,rfl,?_,fun k _ => ?_⟩
  · rw [append_nil]
    exact array_nodup 0 _
  · rw [append_nil]
    exact extend_row _ _
  · rw [append_nil] at hp
    obtain ⟨i,hi,rfl⟩ := mem_array hpos hp
    exact extend_valid _ _ hi
  · change cap.toNat = _
    simp [inner]
    omega
  · rw [Nat.pow_zero,Nat.mul_one]
    rfl
  · exact Nat.mul_le_mul_left _ (Nat.pow_le_pow_right Nat.two_pos (Nat.zero_le k))

section
variable (h : Holds C s q)
include h

theorem Holds.roomy : Roomy C q := by
  obtain ⟨free,full,j,hlayout,rfl,htotal,hlimit⟩ := h
  intro k hk
  have hle := hlimit k hk
  have hcap := hlayout.cap
  rw [State.payloads,length_map]
  omega

theorem Holds.push [Inhabited T] (x : T) (hroom : Roomy C (q ++ [x])) :
    ∃ s', s.push x = some s' ∧ Holds C s' (q ++ [x]) := by
  obtain ⟨free,full,j,hlayout,rfl,htotal,hlimit⟩ := h
  have hcap := hlayout.cap
  cases free with
  | cons p free =>
    obtain ⟨s',hpush,hlayout',hpayloads⟩ := push_free hlayout x
    refine ⟨s',hpush,free,_,j,hlayout',hpayloads,?_,hlimit⟩
    rw [← htotal,hlayout'.cap,hcap,length_append,length_singleton,length_cons]
    omega
  | nil =>
    have hsmall : s.cap.toNat < 2 ^ 31 := by
      by_contra hge
      have := hroom j (htotal ▸ Nat.not_lt.mp hge)
      rw [length_append,State.payloads,length_map,length_singleton,← htotal,hcap] at this
      simp at this
    obtain ⟨s',free',hpush,hlayout',hlength,hpayloads⟩ := push_full hlayout hsmall x
    refine ⟨s',hpush,free',_,j + 1,hlayout',hpayloads,?_,?_⟩
    · rw [Nat.pow_succ,← Nat.mul_assoc,← htotal,hlayout'.cap,hcap,hlength,length_append,
        length_singleton,length_nil]
      omega
    · intro k hk
      have hjk : j < k := by
        by_contra hge
        have := Nat.mul_le_mul_left C (Nat.pow_le_pow_right Nat.two_pos (Nat.not_lt.mp hge))
        omega
      exact Nat.mul_le_mul_left C (Nat.pow_le_pow_right Nat.two_pos hjk)

theorem Holds.push_throws [Inhabited T] (x : T) (hroom : ¬Roomy C (q ++ [x])) :
    s.push x = none := by
  obtain ⟨free,full,j,hlayout,rfl,htotal,hlimit⟩ := h
  obtain ⟨k,hroom⟩ := not_forall.mp hroom
  obtain ⟨hk,hfull⟩ := Classical.not_imp.mp hroom
  have hle := hlimit k hk
  have hcap := hlayout.cap
  rw [length_append,State.payloads,length_map,length_singleton] at hfull
  obtain rfl : free = [] := length_eq_zero_iff.mp (by omega)
  exact CircBuffer.push_throws hlayout (by omega) x

theorem Holds.try_pop : ∃ s', s.tryPop = some (s',q.head?) ∧ Holds C s' q.tail := by
  cases q with
  | nil => exact ⟨s,if_pos h.empty,h⟩
  | cons x q =>
    obtain ⟨hne,hvalid,hx,hholds⟩ := h.pop (s.node s.head).payload
    rw [update_eq_self] at hholds
    exact ⟨_,by rw [try_pop_eq hne hvalid,hx]; rfl,hholds⟩

theorem Holds.try_pop_func (func : T → T) :
    ∃ s', s.tryPopFunc func = some (s',q.head?) ∧ Holds C s' q.tail := by
  cases q with
  | nil => exact ⟨s,if_pos h.empty,h⟩
  | cons x q =>
    obtain ⟨hne,hvalid,hx,hholds⟩ := h.pop (func (s.node s.head).payload)
    exact ⟨_,by rw [try_pop_func_eq hne hvalid,hx]; rfl,hholds⟩

theorem Holds.clear : Holds C s.clear [] := by
  obtain ⟨free,full,j,⟨hring,-,hvalid,hcap⟩,-,htotal,hlimit⟩ := h
  rw [← append_nil (free ++ full)] at hring hvalid
  refine ⟨free ++ full,[],j,⟨hring,rfl,hvalid,?_⟩,rfl,htotal,hlimit⟩
  rw [length_append]
  exact hcap

theorem Holds.perform [Inhabited T] (op : Op T) (hroom : Roomy C (Queue.after q op)) :
    ∃ s', s.perform op = some (s',(Queue.perform q op).2) ∧ Holds C s' (Queue.after q op) := by
  cases op with
  | push x =>
    obtain ⟨s',hpush,hholds⟩ := h.push x hroom
    exact ⟨s',by rw [State.perform,hpush]; rfl,hholds⟩
  | tryPop =>
    obtain ⟨s',hpop,hholds⟩ := h.try_pop
    exact ⟨s',by rw [State.perform,hpop]; rfl,hholds⟩
  | tryPopFunc func =>
    obtain ⟨s',hpop,hholds⟩ := h.try_pop_func func
    exact ⟨s',by rw [State.perform,hpop]; rfl,hholds⟩
  | clear => exact ⟨s.clear,rfl,h.clear⟩

theorem Holds.throws [Inhabited T] (op : Op T)
    (hroom : ¬Roomy C (Queue.after q op)) : s.perform op = none := by
  cases op with
  | push x => rw [State.perform,h.push_throws x hroom]; rfl
  | tryPop | tryPopFunc func =>
    refine absurd (fun k hk => Nat.lt_of_le_of_lt ?_ (h.roomy k hk)) hroom
    rw [Queue.after,Queue.perform,length_tail]
    exact Nat.sub_le _ _
  | clear => exact absurd (fun k hk => Nat.lt_of_le_of_lt (Nat.zero_le _) (h.roomy k hk)) hroom

theorem Holds.results_iff [Inhabited T] (ops : List (Op T)) :
    s.results ops = some (Queue.results q ops) ↔ ∀ r ∈ Queue.contents q ops, Roomy C r := by
  induction ops generalizing s q with
  | nil =>
    refine ⟨fun _ r hr => ?_,fun _ => rfl⟩
    rw [mem_singleton.mp hr]
    exact h.roomy
  | cons op ops ih =>
    by_cases hroom : Roomy C (Queue.after q op)
    · obtain ⟨s',hperform,hholds⟩ := h.perform op hroom
      have hcall : s.results (op :: ops) = some (Queue.results q (op :: ops)) ↔
          s'.results ops = some (Queue.results (Queue.after q op) ops) := by
        rw [State.results,hperform,Queue.results]
        simp
      rw [hcall,ih hholds,Queue.contents,forall_mem_cons]
      exact ⟨fun hall => ⟨h.roomy,hall⟩,fun hall => hall.2⟩
    · refine ⟨fun hsome => ?_,fun hall => ?_⟩
      · rw [State.results,h.throws op hroom] at hsome
        cases hsome
      · refine absurd (hall _ (mem_cons_of_mem _ ?_)) hroom
        cases ops <;> exact mem_cons_self

end

/-- The buffer is a queue without a bound exactly as long as its capacity is an `int`: as long as
it never has to hold so many elements that a ring of more than `2 ^ 31` nodes is full. -/
theorem fifo_iff_roomy [Inhabited T] (cap : BitVec 32) (hcap : 2 ≤ cap.toInt) (ops : List (Op T)) :
    (init cap).bind (fun s => s.results ops) = some (Queue.results [] ops) ↔
      ∀ q ∈ Queue.contents [] ops, ∀ k, 2 ^ 31 ≤ cap.toNat * 2 ^ k → q.length < cap.toNat * 2 ^ k := by
  obtain ⟨s,hinit,hholds⟩ := init_holds (T := T) hcap
  rw [hinit]
  exact hholds.results_iff ops

/-- A ring of two nodes: the third `push` finds it full with the head in its second node, and puts an
array of two nodes in between; the fifth one puts in an array of four. -/
theorem fifo_iff_roomy_grown : 2 ≤ (2 : BitVec 32).toInt ∧
    (init 2).bind (fun s => s.results [.push 1,.tryPop,.push 2,.push 3,.push 4,.push 5,.tryPop,
      .tryPopFunc (· + 1),.tryPop,.clear,.tryPop]) =
      some [.done,.popped (some 1),.done,.done,.done,.done,.popped (some 2),.popped (some 3),
        .popped (some 4),.done,.popped none] := by
  refine ⟨by decide,(fifo_iff_roomy 2 (by decide) _).mpr ?_⟩
  intro q hq k hk
  refine Nat.lt_of_lt_of_le ?_ hk
  revert q
  decide

theorem mem_contents_replicate (q : List T) (x : T) (n : Nat) :
    q ++ replicate n x ∈ Queue.contents q (replicate n (.push x)) := by
  induction n generalizing q with
  | zero => exact mem_singleton.mpr (append_nil q)
  | succ n ih =>
    refine mem_cons_of_mem _ ?_
    have := ih (q ++ [x])
    rwa [append_assoc] at this

/-- `2 ^ 31` pushes do not go through. -/
theorem push_overflows :
    (init 64).bind (fun s => s.results (replicate (2 ^ 31) (.push 0))) ≠
      some (Queue.results [] (replicate (2 ^ 31) (.push 0))) := by
  obtain ⟨s,hinit,hholds⟩ := init_holds (T := Nat) (show 2 ≤ (64 : BitVec 32).toInt by decide)
  rw [hinit]
  intro hresults
  have hroom := (hholds.results_iff _).mp hresults _ (mem_contents_replicate [] 0 (2 ^ 31)) 25
  rw [nil_append,length_replicate] at hroom
  exact absurd (hroom (by decide)) (by decide)

end Calls

end Montage.CircBuffer
