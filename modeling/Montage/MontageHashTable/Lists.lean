import Montage.MontageHashTable.Model

namespace Montage.MontageHashTable
open Library Library.Maps Recoverable EpochSys List
open ToBeFreed (Kind)

variable {K V : Type} [LinearOrder K] {content content' : Addr → Payload K V} {key k : K} {val : V}
  {l before after b a : List Addr} {curr x p q r : Addr}

/-- Buckets are in strictly increasing order of their keys. -/
def Sorted (content : Addr → Payload K V) (l : List Addr) : Prop :=
  l.Pairwise fun p q => (content p).key < (content q).key

/-- A search that finds the key splits the list at its node. -/
theorem search_equal (h : search content key before l = .equal b curr a) :
    before ++ l = b ++ curr :: a ∧ (content curr).key = key := by
  induction l generalizing before with
  | nil => cases h
  | cons p l ih =>
    unfold search at h
    split at h
    next heq =>
      cases h
      exact ⟨rfl,heq⟩
    next =>
      split at h
      next => cases h
      next =>
        have hmore := ih h
        rwa [append_assoc] at hmore

/-- A search that does not find the key splits the list where it would stand. -/
theorem search_absent (hs : Sorted content l) (hb : ∀ p ∈ before, (content p).key < key)
    (h : search content key before l = .absent b a) :
    before ++ l = b ++ a ∧ (∀ p ∈ b, (content p).key < key) ∧ ∀ p ∈ a, key < (content p).key := by
  induction l generalizing before with
  | nil =>
    cases h
    exact ⟨rfl,hb,fun _ hp => absurd hp not_mem_nil⟩
  | cons p l ih =>
    obtain ⟨hfirst,hrest⟩ := pairwise_cons.mp hs
    unfold search at h
    split at h
    next => cases h
    next hne =>
      split at h
      next hlt =>
        cases h
        refine ⟨rfl,hb,?_⟩
        intro q hq
        rcases mem_cons.mp hq with rfl | hq
        · exact hlt
        · exact hlt.trans (hfirst q hq)
      next hge =>
        have hpassed : ∀ q ∈ before ++ [p], (content q).key < key := by
          intro q hq
          rcases mem_append.mp hq with hq | hq
          · exact hb q hq
          · rw [mem_singleton.mp hq]
            exact lt_of_le_of_ne (not_lt.mp hge) hne
        have hmore := ih hrest hpassed h
        rwa [append_assoc] at hmore

theorem lookup_append (b a : List Addr) :
    lookup content k (b ++ a) = (lookup content k b).or (lookup content k a) := by
  induction b with
  | nil => simp [lookup]
  | cons p b ih =>
    rw [cons_append,lookup,lookup,ih]
    split <;> simp

theorem lookup_none (h : ∀ p ∈ l, (content p).key ≠ k) : lookup content k l = none := by
  induction l with
  | nil => rfl
  | cons p l ih =>
    rw [lookup,if_neg (h p mem_cons_self)]
    exact ih fun q hq => h q (mem_cons_of_mem _ hq)

theorem lookup_congr (h : ∀ p ∈ l, content' p = content p) :
    lookup content' k l = lookup content k l := by
  induction l with
  | nil => rfl
  | cons p l ih =>
    rw [lookup,lookup,h p mem_cons_self,ih fun q hq => h q (mem_cons_of_mem _ hq)]

theorem lookup_here (hx : (content x).key = k) (hb : ∀ p ∈ b, (content p).key ≠ k) :
    lookup content k (b ++ x :: a) = some (content x).val := by
  rw [lookup_append,lookup_none hb,lookup,if_pos hx]
  rfl

theorem lookup_skip (hx : (content x).key ≠ k) :
    lookup content k (b ++ x :: a) = lookup content k (b ++ a) := by
  rw [lookup_append,lookup_append,lookup,if_neg hx]

theorem Sorted.congr (hs : Sorted content l) (h : ∀ p ∈ l, (content' p).key = (content p).key) :
    Sorted content' l := by
  refine List.Pairwise.imp_of_mem ?_ hs
  intro p q hp hq hlt
  rwa [h p hp,h q hq]

/-- A node of a sorted list lies between those before and those after it. -/
theorem Sorted.around (hs : Sorted content (b ++ x :: a)) :
    Sorted content (b ++ a) ∧ (∀ p ∈ b, (content p).key < (content x).key) ∧
      ∀ p ∈ a, (content x).key < (content p).key := by
  obtain ⟨hb,hxa,hbxa⟩ := pairwise_append.mp hs
  obtain ⟨hx,ha⟩ := pairwise_cons.mp hxa
  refine ⟨pairwise_append.mpr ⟨hb,ha,?_⟩,?_,hx⟩
  · exact fun p hp q hq => hbxa p hp q (mem_cons_of_mem _ hq)
  · exact fun p hp => hbxa p hp x mem_cons_self

theorem Sorted.insert (hs : Sorted content (b ++ a)) (hb : ∀ p ∈ b, (content p).key < (content x).key)
    (ha : ∀ p ∈ a, (content x).key < (content p).key) : Sorted content (b ++ x :: a) := by
  obtain ⟨hsb,hsa,hba⟩ := pairwise_append.mp hs
  refine pairwise_append.mpr ⟨hsb,pairwise_cons.mpr ⟨ha,hsa⟩,?_⟩
  intro p hp q hq
  rcases mem_cons.mp hq with rfl | hq
  · exact hb p hp
  · exact hba p hp q hq

theorem lookup_apart (hb : ∀ p ∈ b, (content p).key < k) (ha : ∀ p ∈ a, k < (content p).key) :
    lookup content k (b ++ a) = none := by
  refine lookup_none ?_
  intro p hp
  rcases mem_append.mp hp with hp | hp
  · exact (hb p hp).ne
  · exact (ha p hp).ne'

/-- A list becomes another one as the map it stands for is changed by `call`. -/
def Effect (content : Addr → Payload K V) (l : List Addr) (call : Call K V)
    (content' : Addr → Payload K V) (l' : List Addr) (ret : Result V) : Prop :=
  call.effect (lookup content call.key l) = (lookup content' call.key l',ret) ∧
    ∀ k ≠ call.key, lookup content' k l' = lookup content k l

/-- A node linked at its place adds its key to the map. -/
theorem effect_new (call : Call K V) (hs : Sorted content (b ++ a)) (hx : content x = ⟨call.key,val⟩)
    (hb : ∀ p ∈ b, (content p).key < call.key) (ha : ∀ p ∈ a, call.key < (content p).key)
    (heffect : call.effect none = (some val,ret)) :
    Sorted content (b ++ x :: a) ∧ Effect content (b ++ a) call content (b ++ x :: a) ret := by
  have hkey : (content x).key = call.key := by rw [hx]
  refine ⟨hs.insert (hkey ▸ hb) (hkey ▸ ha),?_,?_⟩
  · rw [lookup_apart hb ha,heffect,lookup_here hkey fun p hp => (hb p hp).ne,hx]
  · intro k hk
    rw [lookup_skip (hkey ▸ hk.symm)]

section
variable (hs : Sorted content (b ++ curr :: a))
include hs

/-- `put` on a key that is there replaces its node. -/
theorem effect_put_equal (hkey : (content curr).key = key)
    (hr : r ∉ b ++ a) (hnew : content' r = ⟨key,val⟩) (hsame : ∀ p ≠ r, content' p = content p) :
    Sorted content' (b ++ r :: a) ∧ Effect content (b ++ curr :: a) (.put key val) content'
      (b ++ r :: a) (.value (some (content curr).val)) := by
  obtain ⟨hrest,hb,ha⟩ := hs.around
  rw [hkey] at hb ha
  have hrest' : ∀ p ∈ b ++ a, content' p = content p :=
    fun p hp => hsame p fun he => hr (he ▸ hp)
  have hb' : ∀ p ∈ b, (content' p).key < key := by
    intro p hp
    rw [hrest' p (mem_append_left _ hp)]
    exact hb p hp
  have ha' : ∀ p ∈ a, key < (content' p).key := by
    intro p hp
    rw [hrest' p (mem_append_right _ hp)]
    exact ha p hp
  have hkey' : (content' r).key = key := by rw [hnew]
  refine ⟨(hrest.congr fun p hp => by rw [hrest' p hp]).insert (hkey' ▸ hb') (hkey' ▸ ha'),?_,?_⟩
  · rw [Call.key,lookup_here hkey fun p hp => (hb p hp).ne,
      lookup_here hkey' fun p hp => (hb' p hp).ne,hnew]
    rfl
  · intro k hk
    rw [lookup_skip (hkey' ▸ hk.symm),lookup_skip (hkey ▸ hk.symm),lookup_congr hrest']

theorem effect_insert_equal (hkey : (content curr).key = key) :
    Effect content (b ++ curr :: a) (.insert key val) content (b ++ curr :: a) (.flag false) := by
  obtain ⟨-,hb,-⟩ := hs.around
  refine ⟨?_,fun _ _ => rfl⟩
  rw [Call.key,lookup_here hkey fun p hp => hkey ▸ (hb p hp).ne]
  rfl

theorem effect_remove_equal (hkey : (content curr).key = key) :
    Sorted content (b ++ a) ∧ Effect content (b ++ curr :: a) (.remove key) content (b ++ a)
      (.value (some (content curr).val)) := by
  obtain ⟨hrest,hb,ha⟩ := hs.around
  rw [hkey] at hb ha
  refine ⟨hrest,?_,?_⟩
  · rw [Call.key,lookup_here hkey fun p hp => (hb p hp).ne,lookup_apart hb ha]
    rfl
  · intro k hk
    rw [lookup_skip (hkey ▸ hk.symm)]

end

theorem effect_remove_absent (hb : ∀ p ∈ b, (content p).key < key)
    (ha : ∀ p ∈ a, key < (content p).key) :
    Effect content (b ++ a) (.remove key) content (b ++ a) (.value none) := by
  refine ⟨?_,fun _ _ => rfl⟩
  rw [Call.key,lookup_apart hb ha]
  rfl

end Montage.MontageHashTable
