import Montage.SSHashTable.Table

namespace Montage.SSHashTable
open Library Function List

variable {K V : Type} {hash : K → BitVec 64} {k : Nat}
  {s s' : State K V} {ls ls' : Nat → List Addr} {i : Nat} {a node : Addr} {key : K} {val : V}
  {m : K → Option V} {before after : List Addr} {bucket : Nat}

section
variable (hr : Represents hash k s ls m)
include hr

theorem Represents.link [DecidableEq K] (hnode : s'.node = s.node)
    (hlist : ls ((hash key).toNat % 2 ^ k) = before ++ after)
    (hp : (s.node node).payload = some (key,val))
    (hnone : ∀ b ∈ ls ((hash key).toNat % 2 ^ k), ∀ v, (s.node b).payload ≠ some (key,v)) :
    Represents hash k s'
      (update ls ((hash key).toNat % 2 ^ k) (before ++ node :: after))
      (update m key (some val)) := by
  have hmem : ∀ b, b ∈ before ++ node :: after ↔
      b = node ∨ b ∈ ls ((hash key).toNat % 2 ^ k) := by
    intro b
    rw [hlist]
    simp only [mem_append,mem_cons]
    tauto
  intro key' val'
  rw [hnode]
  by_cases hkey : key' = key
  · subst hkey
    rw [update_self,update_self]
    constructor
    · intro hval
      cases hval
      exact ⟨node,(hmem node).mpr (.inl rfl),hp⟩
    · rintro ⟨b,hb,hpb⟩
      rcases (hmem b).mp hb with rfl | hb
      · rw [hp] at hpb
        cases hpb
        rfl
      · exact absurd hpb (hnone b hb val')
  · rw [update_of_ne hkey,hr key' val']
    by_cases hbucket : (hash key').toNat % 2 ^ k = (hash key).toNat % 2 ^ k
    · rw [hbucket,update_self]
      constructor
      · rintro ⟨b,hb,hpb⟩
        exact ⟨b,(hmem b).mpr (.inr hb),hpb⟩
      · rintro ⟨b,hb,hpb⟩
        rcases (hmem b).mp hb with rfl | hb
        · rw [hp] at hpb
          cases hpb
          exact absurd rfl hkey
        · exact ⟨b,hb,hpb⟩
    · rw [update_of_ne hbucket]

theorem Represents.unlink [DecidableEq K] (ht : Table hash k s ls) (hnode : s'.node = s.node)
    (hlist : ls ((hash key).toNat % 2 ^ k) = before ++ a :: after)
    (hp : (s.node a).payload = some (key,val)) :
    Represents hash k s' (update ls ((hash key).toNat % 2 ^ k) (before ++ after))
      (update m key none) := by
  have hb := ht.bucket ((hash key).toNat % 2 ^ k)
  rw [hlist] at hb
  have hothers : ∀ b ∈ before ++ after, b ≠ a := by
    have hnodup : (before ++ a :: after).Nodup :=
      (nodup_cons.mp hb.list.chain.nodup).2.of_map _
    have hnot := (nodup_middle.mp hnodup).notMem
    exact fun b hb he => hnot (he ▸ hb)
  have hsub : ∀ b ∈ before ++ after, b ∈ before ++ a :: after := by
    intro b hb
    simp only [mem_append,mem_cons] at hb ⊢
    tauto
  intro key' val'
  rw [hnode]
  by_cases hkey : key' = key
  · subst hkey
    rw [update_self,update_self]
    constructor
    · intro hval
      cases hval
    · rintro ⟨b,hbm,hpb⟩
      exact absurd (hb.keys b (hsub b hbm) a (by simp) key' val' val hpb hp) (hothers b hbm)
  · rw [update_of_ne hkey,hr key' val']
    by_cases hbucket : (hash key').toNat % 2 ^ k = (hash key).toNat % 2 ^ k
    · rw [hbucket,update_self,hlist]
      constructor
      · rintro ⟨b,hbm,hpb⟩
        refine ⟨b,?_,hpb⟩
        have hne : b ≠ a := by
          rintro rfl
          rw [hp] at hpb
          cases hpb
          exact hkey rfl
        simp only [mem_append,mem_cons] at hbm ⊢
        tauto
      · rintro ⟨b,hbm,hpb⟩
        exact ⟨b,hsub b hbm,hpb⟩
    · rw [update_of_ne hbucket]

theorem Represents.absent
    (hnone : ∀ b ∈ ls ((hash key).toNat % 2 ^ k), ∀ val, (s.node b).payload ≠ some (key,val)) :
    m key = none := by
  cases hm : m key with
  | none => rfl
  | some val =>
    obtain ⟨b,hb,hp⟩ := (hr key val).mp hm
    exact absurd hp (hnone b hb val)

theorem Represents.congr (hnode : s'.node = s.node) : Represents hash k s' ls m := by
  intro key val
  rw [hnode]
  exact hr key val

end

theorem Table.congr (ht : Table hash k s ls) (hcell : s'.cell = s.cell) (hnode : s'.node = s.node)
    (hfresh : s'.fresh = s.fresh) : Table hash k s' ls :=
  ⟨fun i => (ht.bucket i).congr (fun d _ => by rw [hcell]) (fun a _ => by rw [hnode]) hfresh.ge,
    ht.apart⟩

/-- The table between two calls: its lists stand for a map, and `size` is a power of two that an
`int` can hold. -/
structure Inv (hash : K → BitVec 64) (k : Nat) (s : State K V) (ls : Nat → List Addr)
    (m : K → Option V) : Prop where
  table : Table hash k s ls
  map : Represents hash k s ls m
  size : ∃ j, s.size = 2 ^ (k + j)
  bound : s.size ≤ 2 ^ 30
  count : s.count < 2 ^ 31

/-- `count` is at most `INT_MAX` when it is compared, so `size` does not double beyond what an
`int` holds. -/
theorem count_up_sized (hsize : ∃ j, s.size = 2 ^ (k + j)) (hbound : s.size ≤ 2 ^ 30)
    (hcount : s.count < 2 ^ 31) :
    (∃ j, (countUp s).size = 2 ^ (k + j)) ∧ (countUp s).size ≤ 2 ^ 30 ∧
      (countUp s).count < 2 ^ 31 := by
  obtain ⟨j,hj⟩ := hsize
  have hnext : (countUp s).count < 2 ^ 31 := Int.bmod_lt (by omega)
  by_cases hload : s.count.tdiv s.size > 3
  · have hdouble : (countUp s).size = 2 * s.size := if_pos hload
    have hpos : (0 : Int) < s.size := by
      have := Nat.two_pow_pos (k + j)
      omega
    have hge : (0 : Int) ≤ s.count := by
      by_contra hneg
      have hquot : 0 ≤ (-s.count).tdiv s.size := Int.tdiv_nonneg (by omega) hpos.le
      rw [Int.neg_tdiv] at hquot
      omega
    have hmul : 4 * (s.size : Int) ≤ s.count := by
      rw [Int.tdiv_eq_ediv_of_nonneg hge] at hload
      exact (Int.le_ediv_iff_mul_le hpos).mp (by omega)
    refine ⟨⟨j + 1,?_⟩,?_,hnext⟩
    · rw [hdouble,hj,← Nat.add_assoc,Nat.pow_succ,Nat.mul_comm]
    · omega
  · have hkeep : (countUp s).size = s.size := if_neg hload
    rw [hkeep]
    exact ⟨⟨j,hj⟩,hbound,hnext⟩

section
variable (hi : Inv hash k s ls m)
include hi

/-- The array is not larger than `size`, so an index that it has is the one it would always have
had. -/
theorem Inv.index (hlt : index hash s key < 2 ^ k) :
    index hash s key = (hash key).toNat % 2 ^ k := by
  obtain ⟨j,hj⟩ := hi.size
  rw [SSHashTable.index,hj] at hlt ⊢
  rw [← Nat.mod_eq_of_lt hlt,Nat.mod_mod_of_dvd _ (Nat.pow_dvd_pow 2 (Nat.le_add_right k j))]

theorem Inv.capacity : 2 ^ k ≤ 2 ^ 30 := by
  obtain ⟨j,hj⟩ := hi.size
  calc 2 ^ k ≤ 2 ^ (k + j) := Nat.pow_le_pow_right (by omega) (Nat.le_add_right k j)
    _ = s.size := hj.symm
    _ ≤ 2 ^ 30 := hi.bound

theorem Inv.grows (ht : Table hash k s' ls') (hg : Grows s ls s' ls') : Inv hash k s' ls' m where
  table := ht
  map := hi.map.grows hi.table hg
  size := by
    rw [hg.size]
    exact hi.size
  bound := by
    rw [hg.size]
    exact hi.bound
  count := by
    rw [hg.count]
    exact hi.count

variable [DecidableEq K] [Inhabited K]

theorem open_bucket_ok (hlt : bucket < 2 ^ k) :
    ∃ s' ls', openBucket (2 ^ k) s bucket = .ok s' ∧ Inv hash k s' ls' m ∧ Grows s ls s' ls' ∧
      (bucket = 0 → ∀ j, j ≠ 0 → ls' j = ls j) := by
  have hcapacity := hi.capacity
  rw [openBucket,if_neg (not_le.mpr hlt)]
  by_cases hnull : (s.cell (.bucket bucket)).ptr = none
  · rw [if_pos hnull]
    obtain ⟨s',ls',hok,ht,hg,hsame,-⟩ :=
      initialize_bucket_ok hi.table (Nat.lt_succ_self bucket) (by omega)
    refine ⟨s',ls',hok,hi.grows ht hg,hg,?_⟩
    rintro rfl j hj
    exact hsame j (Nat.zero_le j) hj
  · rw [if_neg hnull]
    exact ⟨s,ls,rfl,hi,.refl s ls fun i => (hi.table.bucket i).made,fun _ _ _ => rfl⟩

def CallOk (hash : K → BitVec 64) (k : Nat) (s : State K V) (ls : Nat → List Addr)
    (m : K → Option V) (call : Call K V) : Prop :=
  ∃ s' ls', perform hash (2 ^ k) s call = .ok (s',(call.effect (m call.key)).2) ∧
    Inv hash k s' ls' (update m call.key (call.effect (m call.key)).1) ∧
    (index hash s call.key = 0 → ∀ j, j ≠ 0 → ls' j = ls j)

theorem get_ok (hlt : index hash s key < 2 ^ k) : CallOk hash k s ls m (.get key) := by
  have hindex := hi.index hlt
  obtain ⟨s1,ls1,hopen,hi1,-,hothers⟩ := open_bucket_ok hi hlt
  rw [CallOk]
  simp only [Call.key,Call.effect,Call.toMap,Maps.Call.key,Maps.Call.effect,update_eq_self]
  refine ⟨s1,ls1,?_,hi1,hothers⟩
  rw [hindex] at hopen
  have hb := hi1.table.bucket ((hash key).toNat % 2 ^ k)
  obtain ⟨r,before,after,hfind,hstops⟩ := list_find_ok hb (soRegularkey (hash key)) key
  cases hr : r.found with
  | false =>
    obtain ⟨-,hnone⟩ := hstops.none_matches hb hr
    rw [hi1.map.absent fun b hb' val hp => hnone b hb' ((hb.fits b hb').matches hp)]
    simp [perform,get,hindex,hopen,hfind,bind,Except.bind,hr,pure,Except.pure]
  | true =>
    obtain ⟨a,ha,hmatch⟩ := hstops.found hr
    have hain : a ∈ ls1 ((hash key).toNat % 2 ^ k) := by
      rw [hstops.list]
      exact mem_append_right _ (mem_of_mem_head? ha)
    obtain ⟨val,hval⟩ := (hb.fits a hain).regular hmatch
    rw [(hi1.map key val).mpr ⟨a,hain,hval⟩]
    simp [perform,get,hindex,hopen,hfind,bind,Except.bind,hr,hstops.curr,ha,hval,pure,Except.pure]

theorem remove_ok (hlt : index hash s key < 2 ^ k) : CallOk hash k s ls m (.remove key) := by
  have hindex := hi.index hlt
  obtain ⟨s1,ls1,hopen,hi1,-,hothers⟩ := open_bucket_ok hi hlt
  rw [CallOk]
  simp only [Call.key,Call.effect,Call.toMap,Maps.Call.key,Maps.Call.effect]
  rw [hindex] at hopen
  rcases list_delete_ok hi1.table key with
    ⟨hok,hnone⟩ | ⟨s2,a,val,before,after,hok,hlist,hval,ht2,hsame⟩
  · have habsent := hi1.map.absent hnone
    refine ⟨s1,ls1,?_,?_,hothers⟩
    · rw [habsent]
      simp [perform,remove,hindex,hopen,hok,bind,Except.bind,pure,Except.pure]
    · rw [← habsent,update_eq_self]
      exact hi1
  · have hkey : m key = some val := (hi1.map key val).mpr ⟨a,by rw [hlist]; simp,hval⟩
    refine ⟨{ s2 with count := (s2.count - 1).bmod (2 ^ 32) },_,?_,
      ⟨ht2.congr rfl rfl rfl,(hi1.map.unlink hi1.table hsame.node hlist hval).congr rfl,?_,?_,?_⟩,?_⟩
    · rw [hkey]
      simp [perform,remove,hindex,hopen,hok,bind,Except.bind,pure,Except.pure]
    · simpa [hsame.size] using hi1.size
    · simpa [hsame.size] using hi1.bound
    · exact Int.bmod_lt (by omega)
    · intro h0 j hj
      have hne : j ≠ (hash key).toNat % 2 ^ k := by omega
      rw [update_of_ne hne]
      exact hothers h0 j hj

theorem insert_ok (hlt : index hash s key < 2 ^ k) : CallOk hash k s ls m (.insert key val) := by
  have hindex := hi.index hlt
  have hunlinked : ∀ j, s.fresh ∉ ls j :=
    fun j h => lt_irrefl _ ((hi.table.bucket j).made _ h)
  obtain ⟨ht1,hg1⟩ := new_node_table hi.table ⟨soRegularkey (hash key),some (key,val)⟩
  have hself : (s.newNode ⟨soRegularkey (hash key),some (key,val)⟩).1.node s.fresh =
    ⟨soRegularkey (hash key),some (key,val)⟩ := update_self ..
  have hmade : s.fresh < (s.newNode ⟨soRegularkey (hash key),some (key,val)⟩).1.fresh :=
    Nat.lt_succ_self _
  have hcode : perform hash (2 ^ k) s (.insert key val) =
      (openBucket (2 ^ k) (s.newNode ⟨soRegularkey (hash key),some (key,val)⟩).1
          (index hash s key)).bind fun s2 =>
        (listInsert s2 (.bucket (index hash s key)) s.fresh).bind fun r =>
          if r.2.1 then .ok (countUp r.1,.flag true) else .ok (r.1,.flag false) := by
    rw [perform,insert]
    rfl
  generalize (s.newNode ⟨soRegularkey (hash key),some (key,val)⟩).1 = s1 at ht1 hg1 hself hmade hcode
  obtain ⟨s2,ls2,hopen,hi2,hg2,hothers⟩ := open_bucket_ok (hi.grows ht1 hg1) hlt
  rw [hopen,Except.bind,hindex] at hcode
  have hnode : s2.node s.fresh = ⟨soRegularkey (hash key),some (key,val)⟩ :=
    (hg2.node s.fresh hmade).trans hself
  have hpayload : (s2.node s.fresh).payload = some (key,val) := by rw [hnode]
  have hkey : s2.getKey s.fresh = key := by rw [State.getKey,hpayload]; rfl
  have hfits : Fits hash k ((hash key).toNat % 2 ^ k) (s2.node s.fresh) := by
    rw [hnode]
    refine ⟨?_,fun h => (by cases h)⟩
    intro key' val' hp
    cases hp
    exact ⟨rfl,rfl⟩
  rw [CallOk]
  simp only [Call.key,Call.effect,Call.toMap,Maps.Call.key]
  rcases list_insert_ok hi2.table ((hash key).toNat % 2 ^ k) (lt_of_lt_of_le hmade hg2.fresh)
      (fun j h => hunlinked j ((hg2.old j _ hmade).mp h)) hfits with
    ⟨a,ha,hok,hmatch⟩ | ⟨s3,before,after,curr,hok,hlist,ht3,hsame,hnone⟩
  · rw [hnode,hkey] at hmatch
    obtain ⟨old,hold⟩ := ((hi2.table.bucket _).fits a ha).regular hmatch
    have hpresent : m key = some old := (hi2.map key old).mpr ⟨a,ha,hold⟩
    refine ⟨s2,ls2,?_,?_,hothers⟩
    · rw [hcode,hok,hpresent]
      rfl
    · rw [hpresent,Maps.Call.effect,← hpresent,update_eq_self]
      exact hi2
  · rw [hnode,hkey] at hnone
    have hnokey : ∀ b ∈ ls2 ((hash key).toNat % 2 ^ k), ∀ v,
        (s2.node b).payload ≠ some (key,v) :=
      fun b hb v hp => hnone b hb (((hi2.table.bucket _).fits b hb).matches hp)
    obtain ⟨hsize,hbound,hcount⟩ := count_up_sized (s := s3) (k := k) (by simpa [hsame.size] using hi2.size)
      (by simpa [hsame.size] using hi2.bound) (by simpa [hsame.count] using hi2.count)
    rw [hi2.map.absent hnokey]
    refine ⟨countUp s3,_,?_,⟨ht3.congr rfl rfl rfl,
      (hi2.map.link hsame.node hlist hpayload hnokey).congr rfl,hsize,hbound,hcount⟩,?_⟩
    · rw [hcode,hok]
      rfl
    · intro h0 j hj
      have hne : j ≠ (hash key).toNat % 2 ^ k := by omega
      rw [update_of_ne hne]
      exact hothers h0 j hj

theorem perform_ok {call : Call K V}
    (hlt : index hash s call.key < 2 ^ k) : CallOk hash k s ls m call := by
  cases call with
  | get => exact get_ok hi hlt
  | insert => exact insert_ok hi hlt
  | remove => exact remove_ok hi hlt

end

end Montage.SSHashTable
