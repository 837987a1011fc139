import Montage.Durable.Invariant

namespace Montage.Durable
open Library EpochSys Function List Option

variable {n : Nat} {s s' : State n} {t : Fin n} {x a b : Addr} {c j : Nat}

section calls

variable {life : Nat → Life n} {op : Option Nat} {h : Heap} {is rest : List Instr}

end calls

/-- Thread `t`, which has no access left, begins a call with the accesses `is`. It comes to
hold blocks that were free, its own, or live in a payload that the call takes. -/
structure Call (s : State n) (t : Fin n) (is : List Instr) (result : Option (Nat × Addr))
    (s' : State n) : Prop where
  idle : s.pending t = []
  headers : s'.globalEpoch = s.globalEpoch ∧ s'.vol = s.vol ∧ s'.per = s.per ∧
    s'.persist = s.persist
  op : s'.op t = s.op t
  tbf : ∀ u, u ≠ t → s'.tbf u = s.tbf u
  allocs : ∀ u, u ≠ t → s'.allocs u = s.allocs u
  pending : s'.pending = update s.pending t is
  result : s'.result = update s.result t result
  known : s.known ⊆ s'.known
  life : Lasting t s.life s'.life
  place : ∀ x, s'.place x = s.place x ∨ s'.place x = .held t ∧ x ∈ s'.known ∧
    ((s.place x).owner = some t ∨ s.place x = .free ∨
      ∃ j, s.place x = .live j ∧ s'.life j ≠ s.life j)
  left : ∀ a ∈ s'.allocs t, a ∈ s.allocs t ∧ s'.place a = s.place a
  distinct : (s'.allocs t).Nodup
  waiting : ∀ j, ∀ w ∈ (s'.tbf t).buckets j,
    w ∈ (s.tbf t).buckets j ∧ s'.place w.blk = s.place w.blk
  once : ∀ j, (((s'.tbf t).buckets j).map ToBeFreed.Waiting.blk).Nodup

variable {is : List Instr} {result : Option (Nat × Addr)}

theorem Call.quiet (hc : Call s t is result s') : Quiet s t s' := by
  obtain ⟨hg,hvol,hper,hpersist⟩ := hc.headers
  constructor
  · constructor
    · exact hg
    · exact hc.tbf
    · intro u hu
      rw [hc.pending,update_of_ne hu]
    · intro u hu
      rw [hc.result,update_of_ne hu]
    · exact hc.allocs
    · intro u j e he
      rw [hpersist]
      exact he
    · intro x u hu ho
      rcases hc.place x with h | ⟨-,-,h | h | ⟨j,h,-⟩⟩
      · exact h
      · exact absurd (some.inj (ho.symm.trans h)) hu
      · rw [h] at ho
        cases ho
      · rw [h] at ho
        cases ho
    · intro x j hx hj
      rcases hc.place x with h | ⟨-,-,h | h | ⟨k,h,hk⟩⟩
      · exact h.trans hx
      · rw [hx] at h
        cases h
      · rw [hx] at h
        cases h
      · rw [hx] at h
        cases h
        exact absurd hj hk
    · intro x _ _
      rw [hvol]
    · exact hc.life
  · exact hc.idle
  · exact hper
  · exact hc.known
  · intro x
    rw [hvol]
    exact .inl rfl
  · intro x hx
    rcases hc.place x with h | ⟨h,hk,-⟩
    · exact absurd h hx
    · exact ⟨hk,by simp [h]⟩

section
variable (h : Inv s)
include h

theorem Inv.call (hc : Call s t is result s')
    (hheld : ∀ i ∈ is, ∀ b ∈ target i, s'.place b = .held t)
    (hrel : is.Pairwise fun i j => ∀ b ∈ release i, b ∉ target j)
    (hresult : ∀ i r, result = some (i,r) →
      s'.life i = .busy t ∧ s'.place r = .held t ∧ ∀ j ∈ is, r ∉ release j)
    (hsafe : Safe s'.life t (s.op t) result s.vol is)
    (hpayload : ∀ j, s'.life j ≠ s.life j → j ≠ 0 ∧ Payload s' j) : Next s s' := by
  have hw := h.worker t
  have hpending : s'.pending t = is := by rw [hc.pending,update_self]
  have hres : s'.result t = result := by rw [hc.result,update_self]
  obtain ⟨hg,hvol,-,-⟩ := hc.headers
  apply h.quiet hc.quiet _ hpayload
  constructor
  · rw [hpending]
    exact hheld
  · rw [hpending]
    exact hrel
  · rw [hpending,hres]
    exact hresult
  · rw [hpending,hres,hc.op,hvol]
    exact hsafe
  · intro a ha
    obtain ⟨hmem,hp⟩ := hc.left a ha
    rw [hp,hvol]
    exact hw.made a hmem
  · exact hc.distinct
  · intro j w hwj
    obtain ⟨hmem,hp⟩ := hc.waiting j w hwj
    rw [hp]
    exact hw.waiting j w hmem
  · exact hc.once
  · rw [hc.op,hg]
    exact hw.epoch

theorem Inv.mem_known (hx : s.place x ≠ .free) : x ∈ s.known := by
  by_contra hk
  exact hx ((h.copies x).known hk).1

/-- The blocks of a call on payload `j`, whose newest version is `b`: that version, and
possibly a new block. -/
theorem Inv.holds (hp : s.place b = .live j) (x : Addr) : update s.place b (.held t) x = s.place x ∨
      update s.place b (.held t) x = .held t ∧ x ∈ s.known ∧
        (s.place x = .free ∨ s.place x = .live j) := by
  by_cases hx : x = b
  · subst x
    exact .inr ⟨update_self ..,h.mem_known (by simp [hp]),.inr hp⟩
  · exact .inl (update_of_ne hx _ _)

section
variable (hidle : s.pending t = [])
include hidle

theorem Inv.pop {i : Nat} {w : ToBeFreed.Waiting}
    {ws : List ToBeFreed.Waiting} (hbucket : (s.tbf t).buckets (i % epochWindow) = w :: ws)
    (hth : th = ToBeFreed.deallocate { s.tbf t with
      buckets := update (s.tbf t).buckets (i % epochWindow) ws } w.blk c) :
    Call s t (deletePblk w.blk i) none { s with
      tbf := update s.tbf t th
      place := update s.place w.blk (.held t)
      pending := update s.pending t (deletePblk w.blk i)
      result := update s.result t none } := by
  have hw := h.worker t
  have hplace : s.place w.blk = .waiting t (i % epochWindow) :=
    hw.waiting _ w (by simp [hbucket])
  have honce := hw.once (i % epochWindow)
  rw [hbucket,map_cons,nodup_cons] at honce
  subst th
  refine ⟨hidle,⟨rfl,rfl,rfl,rfl⟩,?_,?_,fun _ _ => rfl,rfl,rfl,List.Subset.refl _,
    fun _ => .inl rfl,?_,?_,hw.distinct,?_,?_⟩
  · simp [State.op,ToBeFreed.deallocate]
  · exact fun u hu => update_of_ne hu _ s.tbf
  · intro x
    by_cases hx : x = w.blk
    · subst x
      refine .inr ⟨update_self ..,h.mem_known (by simp [hplace]),.inl ?_⟩
      rw [hplace]
      rfl
    · exact .inl (update_of_ne hx _ _)
  · intro a ha
    refine ⟨ha,update_of_ne ?_ _ _⟩
    intro heq
    have hmade := (hw.made a ha).1
    rw [heq,hplace] at hmade
    cases hmade
  · intro j v hv
    simp only [update_self,ToBeFreed.deallocate] at hv
    by_cases hj : j = i % epochWindow
    · subst j
      rw [update_self] at hv
      refine ⟨by simp [hbucket,hv],update_of_ne ?_ _ _⟩
      intro heq
      exact honce.1 (mem_map.mpr ⟨v,hv,heq⟩)
    · rw [update_of_ne hj] at hv
      refine ⟨hv,update_of_ne ?_ _ _⟩
      intro heq
      have hv := hw.waiting j v hv
      rw [heq,hplace] at hv
      cases hv
      exact hj rfl
  · intro j
    simp only [update_self,ToBeFreed.deallocate]
    by_cases hj : j = i % epochWindow
    · subst j
      rw [update_self]
      exact honce.2
    · rw [update_of_ne hj]
      exact hw.once j

end

variable {i : Instr}

end

end Montage.Durable
