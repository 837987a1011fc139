import Montage.SOFTHashTable.Model
import Mathlib.Data.List.Nodup
import Mathlib.Data.List.TakeWhile

namespace Montage.SOFTHashTable
open Library Function List Option

inductive Result where
  | inserted (b : Bool)
  | removed (v : Option (List Nat))
  | got (v : Option (List Nat))
  deriving DecidableEq

/-- The bindings of a bucket in the order of the list: a key, and what the array of its value
holds. -/
abbrev Bucket := List (List Nat × List Nat)

namespace Bucket

def before (L : Bucket) (key : List Nat) : Bucket := L.takeWhile fun e => decide (e.1 < key)

def after (L : Bucket) (key : List Nat) : Bucket := L.dropWhile fun e => decide (e.1 < key)

/-- The binding that a search comes to: the first one that is not below, if it begins with the
key. -/
def find (L : Bucket) (key : List Nat) : Option (List Nat × List Nat) :=
  (L.after key).head?.filter fun e => decide (key <+: e.1)

def perform (cfg : Config) (L : Bucket) : Op → Bucket × Result
  | .insert key value _ valueJunk =>
    match L.find key with
    | some _ => (L,.inserted false)
    | none =>
      (L.before key ++ (key,fill cfg.valueSize value valueJunk) :: L.after key,.inserted true)
  | .remove key =>
    match L.find key with
    | some e => (L.before key ++ (L.after key).tail,.removed (some e.2))
    | none => (L,.removed none)
  | .get key => (L,.got ((L.find key).map Prod.snd))

end Bucket

def Bucket.Sorted (L : Bucket) : Prop := L.Pairwise fun a b => a.1 < b.1

/-- A map from keys to the values they were inserted with: what the table is for. -/
abbrev Bindings := List Nat → Option (List Nat)

def Bindings.perform (M : Bindings) : Op → Bindings × Result
  | .insert key value _ _ =>
    match M key with
    | some _ => (M,.inserted false)
    | none => (update M key (some value),.inserted true)
  | .remove key => (update M key none,.removed (M key))
  | .get key => (M,.got (M key))

variable {cfg : Config} {L L1 L2 : Bucket} {key v : List Nat} {e : List Nat × List Nat} {op : Op}

theorem Bucket.before_append_after (L : Bucket) (key : List Nat) :
    L.before key ++ L.after key = L := takeWhile_append_dropWhile

theorem Bucket.before_lt (h : e ∈ L.before key) : e.1 < key := by
  have hlt := mem_takeWhile_imp h
  simpa using hlt

theorem Bucket.before_mem (h : e ∈ L.before key) : e ∈ L := takeWhile_subset _ h

theorem Bucket.after_mem (h : e ∈ L.after key) : e ∈ L := dropWhile_subset _ h

section
variable (h : L.Sorted)
include h

theorem Bucket.Sorted.after_not_lt (he : e ∈ L.after key) : ¬ e.1 < key := by
  have hafter : (L.after key).Pairwise fun a b => a.1 < b.1 :=
    h.sublist (dropWhile_sublist _)
  cases hl : L.after key with
  | nil =>
    rw [hl] at he
    cases he
  | cons e0 l =>
    have hfirst : ¬ e0.1 < key := by
      have hhead := head?_dropWhile_not (fun e : List Nat × List Nat => decide (e.1 < key)) L
      rw [show L.dropWhile (fun e => decide (e.1 < key)) = e0 :: l from hl] at hhead
      simpa using hhead
    rw [hl] at he hafter
    rcases mem_cons.mp he with rfl | he
    · exact hfirst
    · have hlt := (pairwise_cons.mp hafter).1 e he
      exact fun hlt' => hfirst (lt_trans hlt hlt')

omit h in
theorem Bucket.find_eq_some :
    L.find key = some e ↔ ∃ l, L.after key = e :: l ∧ key <+: e.1 := by
  rw [Bucket.find,filter_eq_some_iff,decide_eq_true_eq,head?_eq_some_iff]
  constructor
  · rintro ⟨⟨l,hl⟩,hbegins⟩
    exact ⟨l,hl,hbegins⟩
  · rintro ⟨l,hl,hbegins⟩
    exact ⟨⟨l,hl⟩,hbegins⟩

omit h in
theorem Bucket.find_mem (h : L.find key = some e) : e ∈ L := by
  obtain ⟨l,hl,-⟩ := Bucket.find_eq_some.mp h
  exact Bucket.after_mem (by rw [hl]; exact mem_cons_self)

/-- A search finds something if and only if a key begins with the one searched for. -/
theorem Bucket.Sorted.find_isSome : (L.find key).isSome ↔ ∃ e ∈ L, key <+: e.1 := by
  constructor
  · intro hsome
    obtain ⟨e,he⟩ := isSome_iff_exists.mp hsome
    obtain ⟨l,hl,hbegins⟩ := Bucket.find_eq_some.mp he
    exact ⟨e,Bucket.find_mem he,hbegins⟩
  · rintro ⟨e,he,hbegins⟩
    have hafter : e ∈ L.after key := by
      rw [← L.before_append_after key] at he
      rcases mem_append.mp he with he | he
      · exact absurd (Bucket.before_lt he) (prefix_not_lt hbegins)
      · exact he
    cases hl : L.after key with
    | nil =>
      rw [hl] at hafter
      cases hafter
    | cons e0 l =>
      have hfirst : ¬ e0.1 < key := h.after_not_lt (by rw [hl]; exact mem_cons_self)
      have horder : ¬ e.1 < e0.1 := by
        have hpairwise : (e0 :: l).Pairwise fun a b => a.1 < b.1 := by
          rw [← hl]
          exact List.Pairwise.sublist (dropWhile_sublist _) h
        rw [hl] at hafter
        rcases mem_cons.mp hafter with rfl | hin
        · exact lt_irrefl _
        · exact lt_asymm ((pairwise_cons.mp hpairwise).1 e hin)
      rw [Bucket.find_eq_some.mpr ⟨l,hl,prefix_between hbegins hfirst horder⟩]
      rfl

theorem Bucket.Sorted.find_self (hmem : (key,v) ∈ L) : L.find key = some (key,v) := by
  obtain ⟨e,he⟩ := isSome_iff_exists.mp
    (h.find_isSome.mpr ⟨_,hmem,prefix_refl key⟩)
  obtain ⟨l,hl,-⟩ := Bucket.find_eq_some.mp he
  have hfirst : ¬ e.1 < key := h.after_not_lt (by rw [hl]; exact mem_cons_self)
  have hafter : (key,v) ∈ e :: l := by
    rw [← hl]
    rw [← L.before_append_after key] at hmem
    rcases mem_append.mp hmem with hmem | hmem
    · exact absurd (Bucket.before_lt hmem) (lt_irrefl key)
    · exact hmem
  rcases mem_cons.mp hafter with heq | hin
  · rw [he,heq]
  · have hpairwise : (e :: l).Pairwise fun a b => a.1 < b.1 := by
      rw [← hl]
      exact List.Pairwise.sublist (dropWhile_sublist _) h
    exact absurd ((pairwise_cons.mp hpairwise).1 _ hin) hfirst

theorem Bucket.Sorted.insert (hfind : L.find key = none) :
    Bucket.Sorted (L.before key ++ (key,v) :: L.after key) := by
  have habove : ∀ e ∈ L.after key, key < e.1 := by
    intro e he
    refine lt_of_le_of_ne (not_lt.mp (h.after_not_lt he)) ?_
    intro heq
    have hbegins : key <+: e.1 := heq ▸ prefix_refl key
    have hsome := h.find_isSome.mpr ⟨e,Bucket.after_mem he,hbegins⟩
    rw [hfind] at hsome
    cases hsome
  refine pairwise_append.mpr ⟨h.sublist (takeWhile_sublist _),?_,?_⟩
  · exact pairwise_cons.mpr ⟨habove,h.sublist (dropWhile_sublist _)⟩
  · intro a ha b hb
    rcases mem_cons.mp hb with rfl | hb
    · exact Bucket.before_lt ha
    · exact lt_trans (Bucket.before_lt ha) (habove b hb)

theorem Bucket.Sorted.remove : Bucket.Sorted (L.before key ++ (L.after key).tail) := by
  have hsublist : (L.before key ++ (L.after key).tail).Sublist L := by
    conv => rhs; rw [← L.before_append_after key]
    exact (tail_sublist _).append_left _
  exact h.sublist hsublist

theorem Bucket.Sorted.perform (op : Op) : (L.perform cfg op).1.Sorted := by
  cases op with
  | insert =>
    simp only [Bucket.perform]
    split
    next => exact h
    next hfind => exact h.insert hfind
  | remove =>
    simp only [Bucket.perform]
    split
    next => exact h.remove
    next => exact h
  | get => exact h

variable {M : Bindings}

/-- The key of a call is there, or no other key begins with it. -/
def Clear (L : Bucket) (M : Bindings) (key : List Nat) : Prop :=
  M key = none → ∀ e ∈ L, ¬ key <+: e.1

/-- A value that is looked up takes up its array. -/
def Full (cfg : Config) (M : Bindings) : Op → Prop
  | .insert _ _ _ _ => True
  | .remove key | .get key => ∀ v, M key = some v → v.length = cfg.valueSize

/-- What a bucket has for a key: nothing, or an array that the value was copied to. -/
def Kept (cfg : Config) (L : Bucket) (key : List Nat) : Option (List Nat) → Prop
  | none => ∀ v, (key,v) ∉ L
  | some v => v.length ≤ cfg.valueSize ∧ ∃ junk, (key,fill cfg.valueSize v junk) ∈ L

theorem Bucket.Sorted.find_of_clear (hkept : Kept cfg L key (M key)) (hclear : Clear L M key) :
    (M key = none ∧ L.find key = none) ∨ ∃ v junk, M key = some v ∧ v.length ≤ cfg.valueSize ∧
      L.find key = some (key,fill cfg.valueSize v junk) := by
  cases hM : M key with
  | some v =>
    rw [hM] at hkept
    obtain ⟨hfits,junk,hmem⟩ := hkept
    exact .inr ⟨v,junk,rfl,hfits,h.find_self hmem⟩
  | none =>
    cases hfind : L.find key with
    | none => exact .inl ⟨rfl,rfl⟩
    | some =>
      obtain ⟨e',he',hbegins⟩ := h.find_isSome.mp (by rw [hfind]; rfl)
      exact absurd hbegins (hclear hM e' he')

/-- The result is the right one, if and only if the key is not mistaken for another and the value
takes up its array. -/
theorem Bucket.Sorted.result_iff (hkept : Kept cfg L op.key (M op.key)) :
    (L.perform cfg op).2 = (M.perform op).2 ↔ Clear L M op.key ∧ Full cfg M op := by
  have hresult : Clear L M op.key →
      ((L.perform cfg op).2 = (M.perform op).2 ↔ Full cfg M op) := by
    intro hclear
    rcases h.find_of_clear hkept hclear with ⟨hM,hfind⟩ | ⟨v,junk,hM,hfits,hfind⟩
    · cases op <;> simp only [Op.key] at hM hfind <;>
        simp [Bucket.perform,Bindings.perform,Full,hM,hfind]
    · cases op <;> simp only [Op.key] at hM hfind <;>
        simp [Bucket.perform,Bindings.perform,Full,hM,hfind,fill_self_iff hfits]
  by_cases hclear : Clear L M op.key
  · rw [hresult hclear,and_iff_right hclear]
  · simp only [hclear,false_and,iff_false]
    intro heq
    apply hclear
    intro hM e he hbegins
    obtain ⟨e',hfind⟩ := isSome_iff_exists.mp (h.find_isSome.mpr ⟨e,he,hbegins⟩)
    cases op <;> simp only [Op.key] at hM hfind <;>
      simp [Bucket.perform,Bindings.perform,hM,hfind] at heq

omit h in
theorem Bucket.mem_insert {b : List Nat × List Nat} :
    e ∈ L.before key ++ b :: L.after key ↔ e = b ∨ e ∈ L := by
  conv => rhs; rw [← L.before_append_after key]
  simp only [mem_append,mem_cons]
  tauto

theorem Bucket.Sorted.mem_remove {b : List Nat × List Nat} (hfind : L.find key = some b) :
    e ∈ L.before key ++ (L.after key).tail ↔ e ∈ L ∧ e ≠ b := by
  obtain ⟨l,hl,-⟩ := Bucket.find_eq_some.mp hfind
  have hL := L.before_append_after key
  rw [hl] at hL
  have hnodup : L.Nodup := by
    refine List.Pairwise.imp ?_ h
    rintro a b hlt rfl
    exact lt_irrefl _ hlt
  rw [← hL] at hnodup
  have hnot := (nodup_middle.mp hnodup).notMem
  rw [hl,tail_cons]
  constructor
  · intro he
    refine ⟨?_,fun heq => hnot (heq ▸ he)⟩
    rw [← hL]
    simp only [mem_append,mem_cons] at he ⊢
    tauto
  · rintro ⟨he,hne⟩
    rw [← hL] at he
    simp only [mem_append,mem_cons] at he ⊢
    tauto

end

theorem Bucket.Sorted.keeps (h : L.Sorted) (hvalue : op.value.length ≤ cfg.valueSize)
    (hkept : Kept cfg L op.key (M op.key)) (hclear : Clear L M op.key) :
    Kept cfg (L.perform cfg op).1 op.key ((M.perform op).1 op.key) ∧
      ∀ k, k ≠ op.key → (M.perform op).1 k = M k ∧
        ∀ v, (k,v) ∈ (L.perform cfg op).1 ↔ (k,v) ∈ L := by
  have hfound := h.find_of_clear hkept hclear
  cases op with
  | get => exact ⟨hkept,fun _ _ => ⟨rfl,fun _ => Iff.rfl⟩⟩
  | insert key value keyJunk valueJunk =>
    simp only [Op.key,Bucket.perform,Bindings.perform] at hkept hfound ⊢
    rcases hfound with ⟨hM,hfind⟩ | ⟨v,junk,hM,-,hfind⟩
    · simp only [hM,hfind,update_self,Bucket.mem_insert]
      refine ⟨⟨hvalue,valueJunk,Bucket.mem_insert.mpr (.inl rfl)⟩,?_⟩
      intro k hk
      exact ⟨update_of_ne hk _ _,fun _ => by simp [hk]⟩
    · simp only [hM,hfind] at hkept ⊢
      exact ⟨hkept,fun _ _ => ⟨trivial,fun _ => trivial⟩⟩
  | remove key =>
    simp only [Op.key,Bucket.perform,Bindings.perform] at hkept hfound ⊢
    rcases hfound with ⟨hM,hfind⟩ | ⟨v,junk,-,-,hfind⟩
    · rw [hM] at hkept
      simp only [hfind,update_self]
      exact ⟨hkept,fun k hk => ⟨update_of_ne hk _ _,fun _ => trivial⟩⟩
    · simp only [hfind,update_self,h.mem_remove hfind]
      refine ⟨?_,?_⟩
      · intro a hmem
        obtain ⟨hmem,hne⟩ := (h.mem_remove hfind).mp hmem
        exact hne (some.inj ((h.find_self hmem).symm.trans hfind))
      · intro k hk
        exact ⟨update_of_ne hk _ _,fun _ => by simp [hk]⟩

end Montage.SOFTHashTable
