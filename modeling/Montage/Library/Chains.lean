import Mathlib.Data.List.Nodup

namespace Montage.Library
open List

/-- The nodes that `nxt` visits from a pointer until it is null. -/
inductive Chain {α : Type} (nxt : α → Option α) : Option α → List α → Prop
  | nil : Chain nxt none []
  | cons (a : α) (rest : Chain nxt (nxt a) l) : Chain nxt (some a) (a :: l)

variable {α : Type} {nxt nxt' : α → Option α} {r : Option α} {l l' : List α} {a b : α}

theorem Chain.unique (h : Chain nxt r l) (h' : Chain nxt r l') : l = l' := by
  induction h generalizing l' with
  | nil => cases h'; rfl
  | cons a _ ih =>
    cases h' with
    | cons _ rest => rw [ih rest]

theorem Chain.congr (h : Chain nxt r l) (hsame : ∀ a ∈ l, nxt' a = nxt a) : Chain nxt' r l := by
  induction h with
  | nil => exact .nil
  | cons a _ ih =>
    refine .cons a ?_
    rw [hsame a (by simp)]
    exact ih fun b hb => hsame b (by simp [hb])

theorem Chain.split {l1 l2 : List α} (h : Chain nxt r (l1 ++ a :: l2)) : Chain nxt (nxt a) l2 := by
  induction l1 generalizing r with
  | nil =>
    cases h with
    | cons _ rest => exact rest
  | cons _ _ ih =>
    cases h with
    | cons _ rest => exact ih rest

theorem Chain.from_mem (h : Chain nxt r l) (ha : a ∈ l) :
    ∃ rest, Chain nxt (nxt a) rest ∧ rest.length < l.length := by
  induction h with
  | nil => cases ha
  | @cons l b rest ih =>
    rcases mem_cons.mp ha with rfl | ha
    · exact ⟨_,rest,by simp⟩
    · obtain ⟨rest',hchain,hlen⟩ := ih ha
      exact ⟨rest',hchain,by simp; omega⟩

theorem Chain.not_mem (h : Chain nxt (nxt a) l) : a ∉ l := by
  intro ha
  obtain ⟨rest,hrest,hlen⟩ := h.from_mem ha
  rw [h.unique hrest] at hlen
  omega

theorem Chain.first (h : Chain nxt r l) : r = l.head? := by
  cases h <;> rfl

theorem Chain.nodup (h : Chain nxt r l) : l.Nodup := by
  induction h with
  | nil => exact nodup_nil
  | cons a rest ih => exact nodup_cons.mpr ⟨rest.not_mem,ih⟩

theorem Chain.others {l1 l2 : List α} (h : Chain nxt r (l1 ++ a :: l2)) :
    ∀ c ∈ l1 ++ l2, c ≠ a := by
  have hnot := (nodup_middle.mp h.nodup).notMem
  exact fun c hc he => hnot (he ▸ hc)

theorem Chain.forall {P : α → Prop} (h : Chain nxt r l) (first : ∀ a, r = some a → P a)
    (next : ∀ a b, P a → nxt a = some b → P b) : ∀ a ∈ l, P a := by
  induction h with
  | nil => simp
  | cons b _ ih =>
    have hb := first b rfl
    intro a ha
    rcases mem_cons.mp ha with rfl | ha
    · exact hb
    · exact ih (fun c hc => next b c hb hc) a ha

theorem Chain.pairwise {R : α → α → Prop} (h : Chain nxt r l)
    (trans : ∀ a b c, R a b → R b c → R a c) (next : ∀ a ∈ l, ∀ b, nxt a = some b → R a b) :
    l.Pairwise R := by
  induction h with
  | nil => exact .nil
  | @cons l a rest ih =>
    have hl := ih fun b hb c hc => next b (by simp [hb]) c hc
    refine pairwise_cons.mpr ⟨?_,hl⟩
    intro b hb
    cases hn : nxt a with
    | none =>
      rw [hn] at rest
      cases rest
      cases hb
    | some c =>
      have hac := next a (by simp) c hn
      rw [hn] at rest
      cases rest with
      | cons =>
        rcases mem_cons.mp hb with rfl | hb
        · exact hac
        · exact trans a c b hac ((pairwise_cons.mp hl).1 b hb)

theorem Chain.insert_after {l1 l2 : List α} (h : Chain nxt r (l1 ++ a :: l2))
    (hlink : nxt' a = some b) (hb : nxt' b = nxt a) (hsame : ∀ c ∈ l1 ++ l2, nxt' c = nxt c) :
    Chain nxt' r (l1 ++ a :: b :: l2) := by
  induction l1 generalizing r with
  | nil =>
    cases h with
    | cons _ rest =>
      refine .cons a ?_
      rw [hlink]
      refine .cons b ?_
      rw [hb]
      exact rest.congr hsame
  | cons d _ ih =>
    cases h with
    | cons _ rest =>
      refine .cons d ?_
      rw [hsame d mem_cons_self]
      exact ih rest fun c hc => hsame c (mem_cons_of_mem d hc)

theorem Chain.remove_after {l1 l2 : List α} (h : Chain nxt r (l1 ++ a :: b :: l2))
    (hlink : nxt' a = nxt b) (hsame : ∀ c ∈ l1 ++ l2, nxt' c = nxt c) :
    Chain nxt' r (l1 ++ a :: l2) := by
  induction l1 generalizing r with
  | nil =>
    cases h with
    | cons _ rest =>
      refine .cons a ?_
      rw [hlink]
      generalize nxt a = r at rest
      cases rest with
      | cons _ hafter => exact hafter.congr hsame
  | cons d _ ih =>
    cases h with
    | cons _ rest =>
      refine .cons d ?_
      rw [hsame d mem_cons_self]
      exact ih rest fun c hc => hsame c (mem_cons_of_mem d hc)

theorem Chain.insert (h : Chain nxt r l) (ha : a ∈ l) (hlink : nxt' a = some b)
    (hb : nxt' b = nxt a) (hsame : ∀ c ∈ l, c ≠ a → nxt' c = nxt c) :
    ∃ l', Chain nxt' r l' ∧ b ∈ l' ∧ ∀ c ∈ l, c ∈ l' := by
  obtain ⟨l1,l2,rfl⟩ := append_of_mem ha
  refine ⟨_,h.insert_after hlink hb fun c hc => hsame c ?_ (h.others c hc),by simp,?_⟩
  · simp only [mem_append,mem_cons] at hc ⊢
    tauto
  · simp only [mem_append,mem_cons]
    tauto

theorem Chain.remove (h : Chain nxt r l) (ha : a ∈ l) (hab : nxt a = some b)
    (hlink : nxt' a = nxt b) (hsame : ∀ c ∈ l, c ≠ a → nxt' c = nxt c) :
    ∃ l', Chain nxt' r l' ∧ ∀ c ∈ l, c ≠ b → c ∈ l' := by
  obtain ⟨l1,l2,rfl⟩ := append_of_mem ha
  have hrest := h.split
  rw [hab] at hrest
  cases hrest with
  | @cons l2 _ _ =>
    refine ⟨_,h.remove_after hlink fun c hc => hsame c ?_ (h.others c ?_),?_⟩
    · simp only [mem_append,mem_cons] at hc ⊢
      tauto
    · simp only [mem_append,mem_cons] at hc ⊢
      tauto
    · simp only [mem_append,mem_cons]
      tauto

section Map

variable {β : Type} {nxtb : β → Option β} {f : α → β}

theorem Chain.of_map {bs : List β} (h : Chain nxtb (r.map f) bs)
    (hf : ∀ a, nxtb (f a) = (nxt a).map f) : ∃ l, bs = l.map f ∧ Chain nxt r l := by
  induction bs generalizing r with
  | nil =>
    cases r with
    | none => exact ⟨[],rfl,.nil⟩
    | some => cases h
  | cons _ _ ih =>
    cases r with
    | none => cases h
    | some a =>
      cases h with
      | cons _ rest =>
        rw [hf a] at rest
        obtain ⟨l,rfl,hl⟩ := ih rest
        exact ⟨a :: l,rfl,.cons a hl⟩

end Map

theorem chain_of_order {o : List α} (h : ∀ i a, o[i]? = some a → nxt a = o[i + 1]?) (k : Nat) :
    Chain nxt o[k]? (o.drop k) := by
  by_cases hk : k < o.length
  · rw [drop_eq_getElem_cons hk,getElem?_eq_getElem hk]
    refine .cons _ ?_
    rw [h k _ (getElem?_eq_getElem hk)]
    exact chain_of_order h (k + 1)
  · rw [drop_eq_nil_of_le (by omega),getElem?_eq_none (by omega)]
    exact .nil
termination_by o.length - k

theorem concat_position {o : List α} {j : Nat} :
    (o ++ [a])[j]? = some b ↔ o[j]? = some b ∨ j = o.length ∧ b = a := by
  rw [getElem?_append]
  split
  next =>
    refine ⟨.inl,?_⟩
    rintro (h | ⟨rfl,_⟩)
    · exact h
    · omega
  next =>
    rw [getElem?_eq_none (by omega : o.length ≤ j),getElem?_singleton]
    split
    next => simp [show j = o.length by omega,eq_comm]
    next => simp [show j ≠ o.length by omega]

theorem exists_map_some {β : Type} {f : α → Option β} {l : List α} (h : ∀ a ∈ l, f a ≠ none) :
    ∃ bs : List β, l.map f = bs.map some := by
  induction l with
  | nil => exact ⟨[],rfl⟩
  | cons a l ih =>
    obtain ⟨b,hb⟩ := Option.ne_none_iff_exists'.mp (h a (by simp))
    obtain ⟨bs,hbs⟩ := ih fun c hc => h c (by simp [hc])
    exact ⟨b :: bs,by simp [hb,hbs]⟩

end Montage.Library
