import Montage.SOFTHashTable.Calls

namespace Montage.SOFTHashTable
open Library Function List

abbrev Table := Nat → State

def getBucket (hash : List Nat → Nat) (idxSize : Nat) (key : List Nat) : Nat := hash key % idxSize

def Table.perform (cfg : Config) (bucket : List Nat → Nat) (fuel : Nat) (T : Table) (op : Op) :
    Option (Table × Result) :=
  (SOFTHashTable.perform cfg fuel (T (bucket op.key)) op).map fun r =>
    (update T (bucket op.key) r.1,r.2)

def Table.performAll (cfg : Config) (bucket : List Nat → Nat) (fuel : Nat) :
    Table → List Op → Option (List Result)
  | _, [] => some []
  | T, op :: ops => (T.perform cfg bucket fuel op).bind fun r =>
    (performAll cfg bucket fuel r.1 ops).map fun results => r.2 :: results

def bucketsAll (cfg : Config) (bucket : List Nat → Nat) : (Nat → Bucket) → List Op → List Result
  | _, [] => []
  | B, op :: ops =>
    ((B (bucket op.key)).perform cfg op).2 ::
      bucketsAll cfg bucket
        (update B (bucket op.key) ((B (bucket op.key)).perform cfg op).1) ops

def Bindings.performAll : Bindings → List Op → List Result
  | _, [] => []
  | M, op :: ops => (M.perform op).2 :: Bindings.performAll (M.perform op).1 ops

/-- At every call, its key is there, or no key that is there and has the same bucket begins with
it; and a value that is looked up takes up its array. -/
def Distinguished (cfg : Config) (bucket : List Nat → Nat) : Bindings → List Op → Prop
  | _, [] => True
  | M, op :: ops =>
    (M op.key = none → ∀ k, M k ≠ none → bucket k = bucket op.key → ¬ op.key <+: k) ∧
      Full cfg M op ∧ Distinguished cfg bucket (M.perform op).1 ops

variable {cfg : Config} {bucket : List Nat → Nat} {T : Table} {B : Nat → Bucket} {M : Bindings}
  {ops : List Op} {op : Op} {L : Bucket} {e : List Nat × List Nat}

/-- Every bucket of the table holds its bindings, and no call is running. -/
def Represents (cfg : Config) (T : Table) (B : Nat → Bucket) : Prop :=
  ∀ i, ∃ ids, Holds cfg (T i) ids (B i) ∧ (T i).pc 0 = .idle

theorem table_refines (bucket : List Nat → Nat) (h : Represents cfg T B)
    (hvalid : ∀ op ∈ ops, ValidOp cfg op) :
    ∃ n, ∀ fuel > n, T.performAll cfg bucket fuel ops = some (bucketsAll cfg bucket B ops) := by
  induction ops generalizing T B with
  | nil => exact ⟨0,fun _ _ => rfl⟩
  | cons op _ ih =>
    obtain ⟨ids,hholds,hidle⟩ := h (bucket op.key)
    obtain ⟨n,s',ids',hn,hholds',hidle'⟩ :=
      perform_refines hholds hidle (hvalid op mem_cons_self)
    have hnext : Represents cfg (update T (bucket op.key) s')
        (update B (bucket op.key) ((B (bucket op.key)).perform cfg op).1) := by
      intro i
      by_cases hi : i = bucket op.key
      · subst hi
        rw [update_self,update_self]
        exact ⟨ids',hholds',hidle'⟩
      · rw [update_of_ne hi,update_of_ne hi]
        exact h i
    obtain ⟨m,hm⟩ := ih hnext fun op' hop' => hvalid op' (mem_cons_of_mem op hop')
    refine ⟨Nat.max n m,?_⟩
    intro fuel hfuel
    rw [Table.performAll,Table.perform,hn fuel (lt_of_le_of_lt (Nat.le_max_left n m) hfuel)]
    simp only [Option.map_some,Option.bind_some]
    rw [hm fuel (lt_of_le_of_lt (Nat.le_max_right n m) hfuel)]
    rfl

structure Agrees (cfg : Config) (bucket : List Nat → Nat) (B : Nat → Bucket) (M : Bindings) :
    Prop where
  sorted : ∀ i, (B i).Sorted
  placed : ∀ i, ∀ e ∈ B i, bucket e.1 = i
  bindings : ∀ k, Kept cfg (B (bucket k)) k (M k)

theorem Bucket.perform_mem (h : e ∈ (L.perform cfg op).1) : e ∈ L ∨ e.1 = op.key := by
  cases op with
  | get => exact .inl h
  | insert =>
    simp only [Bucket.perform] at h
    split at h
    next => exact .inl h
    next =>
      rcases Bucket.mem_insert.mp h with rfl | h
      · exact .inr rfl
      · exact .inl h
  | remove =>
    simp only [Bucket.perform] at h
    split at h
    next =>
      rcases mem_append.mp h with h | h
      · exact .inl (Bucket.before_mem h)
      · exact .inl (Bucket.after_mem (mem_of_mem_tail h))
    next => exact .inl h

theorem Agrees.clear_iff (h : Agrees cfg bucket B M) :
    Clear (B (bucket op.key)) M op.key ↔
      (M op.key = none → ∀ k, M k ≠ none → bucket k = bucket op.key → ¬ op.key <+: k) := by
  constructor
  · intro hclear hnone k hk hbucket
    obtain ⟨v,hv⟩ := Option.ne_none_iff_exists'.mp hk
    have hkept := h.bindings k
    rw [hv,hbucket] at hkept
    obtain ⟨-,junk,hmem⟩ := hkept
    exact hclear hnone _ hmem
  · intro hclear hnone e he
    have hbucket := h.placed _ e he
    refine hclear hnone e.1 ?_ hbucket
    intro habsent
    have hkept := h.bindings e.1
    rw [habsent,hbucket] at hkept
    exact hkept e.2 he

theorem Agrees.perform (h : Agrees cfg bucket B M) (hvalue : op.value.length ≤ cfg.valueSize)
    (hclear : Clear (B (bucket op.key)) M op.key) :
    Agrees cfg bucket (update B (bucket op.key) ((B (bucket op.key)).perform cfg op).1)
      (M.perform op).1 := by
  obtain ⟨hself,hother⟩ :=
    (h.sorted (bucket op.key)).keeps hvalue (h.bindings op.key) hclear
  constructor
  case sorted =>
    intro i
    rw [update_apply]
    split
    next => exact (h.sorted _).perform op
    next => exact h.sorted i
  case placed =>
    intro i e he
    rw [update_apply] at he
    split at he
    next hi =>
      rw [hi]
      rcases Bucket.perform_mem he with he | he
      · exact h.placed _ e he
      · rw [he]
    next => exact h.placed i e he
  case bindings =>
    intro k
    by_cases hk : k = op.key
    · subst hk
      rw [update_self]
      exact hself
    · obtain ⟨hM,hmem⟩ := hother k hk
      have hkept := h.bindings k
      rw [hM,update_apply]
      split
      next hbucket =>
        rw [hbucket] at hkept
        cases hv : M k with
        | none =>
          rw [hv] at hkept
          exact fun v hin => hkept v ((hmem v).mp hin)
        | some =>
          rw [hv] at hkept
          obtain ⟨hfits,junk,hin⟩ := hkept
          exact ⟨hfits,junk,(hmem _).mpr hin⟩
      next => exact hkept

theorem results_iff (h : Agrees cfg bucket B M) (hvalid : ∀ op ∈ ops, ValidOp cfg op) :
    bucketsAll cfg bucket B ops = M.performAll ops ↔ Distinguished cfg bucket M ops := by
  induction ops generalizing B M with
  | nil => exact ⟨fun _ => trivial,fun _ => rfl⟩
  | cons op _ ih =>
    rw [bucketsAll,Bindings.performAll,cons.injEq,Distinguished,
      (h.sorted _).result_iff (h.bindings op.key),h.clear_iff,and_assoc]
    refine and_congr_right fun hclear => and_congr_right fun _ => ?_
    exact ih (h.perform (hvalid op mem_cons_self).value (h.clear_iff.mpr hclear))
      fun op' hop' => hvalid op' (mem_cons_of_mem op hop')

theorem init_holds (cfg : Config) (junk : Nat → List Nat) : Holds cfg (init cfg junk) [] [] := by
  refine ⟨.cons 0 (.cons 1 .nil),?_,?_,⟨_,rfl⟩,.nil,.nil⟩
  · intro n hn
    rcases mem_pair.mp hn with rfl | rfl
    · rfl
    · rfl
  · intro n hn
    rcases mem_pair.mp hn with rfl | rfl
    · exact Nat.zero_lt_two
    · exact Nat.one_lt_two

/-- For every hash function and every sequence of calls, enough steps give a result for each of them,
and they are the right ones, if and only if no key is taken for a longer one that begins with it and
no value is shorter than its array: at every call, its key is there or none with the same bucket
begins with it, and a value that is looked up has `VALUESIZE` bytes. -/
theorem results_right_iff (cfg : Config) (hash : List Nat → Nat) (idxSize : Nat)
    (junk : Nat → Nat → List Nat) (ops : List Op) (hvalid : ∀ op ∈ ops, ValidOp cfg op) :
    ∃ n, ∀ fuel > n, ∃ results,
      Table.performAll cfg (getBucket hash idxSize) fuel (fun i => init cfg (junk i)) ops =
        some results ∧
      (results = Bindings.performAll (fun _ => none) ops ↔
        Distinguished cfg (getBucket hash idxSize) (fun _ => none) ops) := by
  have hrep : Represents cfg (fun i => init cfg (junk i)) fun _ => [] :=
    fun i => ⟨[],init_holds cfg (junk i),rfl⟩
  have hagrees : Agrees cfg (getBucket hash idxSize) (fun _ => []) fun _ => none :=
    ⟨fun _ => .nil,fun _ e he => (by cases he),fun k v h => (by cases h)⟩
  obtain ⟨n,hn⟩ := table_refines (getBucket hash idxSize) hrep hvalid
  exact ⟨n,fun fuel hfuel => ⟨_,hn fuel hfuel,results_iff hagrees hvalid⟩⟩

def shorterFirst : List Op :=
  [.insert [97] [1,2] [] [],.insert [97,98] [3,4] [] [],.get [97],.remove [97],.get [97,98]]

theorem results_right_iff_shorter_first :
    ∃ n, ∀ fuel > n,
      Table.performAll ⟨4,2⟩ (getBucket (fun _ => 0) 8) fuel (fun _ => init ⟨4,2⟩ fun _ => [])
        shorterFirst = some [.inserted true,.inserted true,.got (some [1,2]),
          .removed (some [1,2]),.got (some [3,4])] := by
  have hkeys : ∀ key, key = [97] ∨ key = [97,98] → ValidKey ⟨4,2⟩ key := by
    rintro key (rfl | rfl)
    · exact ⟨⟨by decide,by decide⟩,by decide,by decide⟩
    · exact ⟨⟨by decide,by decide⟩,by decide,by decide⟩
  have hvalid : ∀ op ∈ shorterFirst, ValidOp ⟨4,2⟩ op := by
    intro op hop
    refine ⟨hkeys _ ?_,?_⟩
    · revert op
      decide
    · revert op
      decide
  have hdistinguished : Distinguished ⟨4,2⟩ (getBucket (fun _ => 0) 8) (fun _ => none)
      shorterFirst := by
    refine ⟨fun _ k hk => absurd rfl hk,trivial,fun _ k hk _ => ?_,trivial,fun hnone => ?_,?_,
      fun hnone => ?_,?_,fun hnone => ?_,?_,trivial⟩
    · by_cases heq : k = [97]
      · subst heq
        decide
      · have hnone : update (fun _ => none) [97] (some [1,2]) k = none :=
          update_of_ne heq _ _
        exact absurd hnone hk
    · cases hnone
    · rintro v ⟨rfl⟩
      rfl
    · cases hnone
    · rintro v ⟨rfl⟩
      rfl
    · cases hnone
    · rintro v ⟨rfl⟩
      rfl
  obtain ⟨n,hn⟩ := results_right_iff ⟨4,2⟩ (fun _ => 0) 8 (fun _ _ => []) shorterFirst hvalid
  refine ⟨n,fun fuel hfuel => ?_⟩
  obtain ⟨results,hresults,hiff⟩ := hn fuel hfuel
  rw [hresults,hiff.mpr hdistinguished]
  decide +kernel

/-- The longer key comes first: then the shorter one is taken for it. And a value that is shorter
than its array comes back with the zeros after it. -/
theorem prefix_mistaken :
    (Table.performAll ⟨4,2⟩ (getBucket (fun _ => 0) 8) 50 (fun _ => init ⟨4,2⟩ fun _ => [])
      [.insert [97,98] [1,2] [] [],.get [97],.insert [97] [3,4] [] []] =
        some [.inserted true,.got (some [1,2]),.inserted false] ∧
    Bindings.performAll (fun _ => none)
      [.insert [97,98] [1,2] [] [],.get [97],.insert [97] [3,4] [] []] =
        [.inserted true,.got none,.inserted true]) ∧
    Table.performAll ⟨4,2⟩ (getBucket (fun _ => 0) 8) 50 (fun _ => init ⟨4,2⟩ fun _ => [])
      [.insert [97] [1] [] [],.get [97]] = some [.inserted true,.got (some [1,0])] ∧
    Bindings.performAll (fun _ => none) [.insert [97] [1] [] [],.get [97]] =
      [.inserted true,.got (some [1])] := by
  decide +kernel

end Montage.SOFTHashTable
