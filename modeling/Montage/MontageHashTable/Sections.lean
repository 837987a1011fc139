import Montage.MontageHashTable.Lists

namespace Montage.MontageHashTable
open Library Library.Maps Recoverable Recoverable.Memory EpochSys List
open ToBeFreed (Kind)

variable {m m' : Memory} {c c' : Nat} {a b p q x : Addr}

/-- A live payload that is the newest version of its id. -/
structure Current (m : Memory) (c : Nat) (p : Addr) : Prop extends Live m c p where
  newest : ∀ x ∈ m.allocated, x ≠ p → (m.heap x).id = (m.heap p).id →
    (m.heap x).epoch < (m.heap p).epoch

section
variable (hp : Current m c p)
include hp

theorem Current.ids (hq : Current m c' q) (hne : p ≠ q) : (m.heap p).id ≠ (m.heap q).id := by
  intro he
  have h := hp.newest q hq.allocated hne.symm he.symm
  have h' := hq.newest p hp.allocated hne he
  exact lt_asymm h h'

theorem Current.later (hc : c ≤ c') : Current m c' p :=
  { hp with toLive := hp.toLive.later hc }

/-- A payload stays current as long as the blocks with its id are old ones or older ones. -/
theorem Current.carry (hs : Same m m' p)
    (h : ∀ x ∈ m'.allocated, x ≠ p → (m'.heap x).id = (m.heap p).id →
      x ∈ m.allocated ∧ m'.heap x = m.heap x ∨ (m'.heap x).epoch < (m.heap p).epoch) :
    Current m' c p where
  toLive := hs.live hp.toLive
  newest := by
    intro x hx hne hid
    rw [hs.heap] at hid ⊢
    rcases h x hx hne hid with ⟨hold,heq⟩ | hlt
    · rw [heq] at hid ⊢
      exact hp.newest x hold hne hid
    · exact hlt

theorem Current.frees (hb : Current m c' b) (hne : p ≠ b) (hf : Frees m b m') : Current m' c p := by
  refine hp.carry (hf.same p hp.allocated hne) ?_
  intro x hx _ hid
  rcases hf.ids x hx with ⟨hold,hxb⟩ | hanti
  · exact .inl ⟨hold,(hf.same x hold hxb).heap⟩
  · exact absurd (hid.symm.trans hanti) (hp.ids hb hne)

theorem Current.makes (hm : Makes m a m') (hu : Unregistered m' a)
    (ha : a ∉ m.allocated) : Current m' c p := by
  have hne : p ≠ a := fun he => ha (he ▸ hp.allocated)
  refine hp.carry (hm.same hne) ?_
  intro x hx _ _
  by_cases hxa : x = a
  · subst hxa
    rw [hu.epoch]
    exact .inr (Nat.pos_of_ne_zero hp.tagged)
  · rw [hm.allocated] at hx
    exact .inl ⟨(Finset.mem_insert.mp hx).resolve_left hxa,hm.heap x hxa⟩

theorem Current.registers (hr : Registers m bs c' i m') (hlength : bs.length ≤ 1)
    (hunused : Unused m i) (hne : p ∉ bs) : Current m' c p := by
  refine hp.carry (hr.same hne) ?_
  intro x hx _ hid
  by_cases hxb : x ∈ bs
  · obtain ⟨-,-,hle,hlt⟩ := hr.blocks x hxb
    have hxi : (m'.heap x).id = i := by omega
    exact absurd (hid.symm.trans hxi) (hunused p hp.allocated hp.tagged)
  · exact .inl ⟨hr.allocated ▸ hx,hr.heap x hxb⟩

omit hp in
theorem current_registered (hr : Registers m [b] c i m') (hc : c ≠ nullEpoch)
    (hu : Unregistered m b) (hunused : Unused m i) : Current m' c b where
  toLive := hr.live hc (mem_singleton_self b) hu.allocated hu.kept
  newest := by
    intro x hx hne hid
    obtain ⟨hepoch,-,hle,hlt⟩ := hr.blocks b (mem_singleton_self b)
    have hbi : (m'.heap b).id = i := by
      rw [length_singleton] at hlt
      omega
    rw [hr.heap x (by simpa using hne)] at hid ⊢
    rw [hr.allocated] at hx
    rw [hepoch]
    by_cases hnull : (m.heap x).epoch = nullEpoch
    · rw [hnull]
      exact Nat.pos_of_ne_zero hc
    · exact absurd (hid.trans hbi) (hunused x hx hnull)

theorem Current.drains (ht : Tidy m) (hb : b ∈ m.waiting) : Current (m.drain b c') c p := by
  have hne : p ≠ b := fun he => hp.kept (he ▸ hb)
  refine hp.carry (drain_same ht hne) ?_
  intro x hx _ _
  have hxb : x ≠ b := by
    rintro rfl
    have hallocated : (m.drain x c').allocated = m.allocated.erase x := by
      unfold drain deletePblk
      split <;> rfl
    exact Finset.notMem_erase x _ (hallocated ▸ hx)
  have hsame := drain_same (c := c') ht hxb
  exact .inl ⟨hsame.allocated.mp hx,hsame.heap⟩

end

/-- What `set_val` makes of the other payloads and of its own. -/
structure Writes (m : Memory) (c : Nat) (b r : Addr) (m' : Memory) : Prop where
  tidy : Tidy m'
  fresh : r = b ∨ r ∉ m.allocated
  same : ∀ p ∈ m.allocated, p ≠ b → Same m m' p
  current : Current m' c r
  others : ∀ p c', p ≠ b → Current m c' p → Current m' c' p

theorem set_val_writes (ht : Tidy m) (hc : c ≠ nullEpoch) (hb : Current m c b)
    (ha : a ∉ m.allocated) :
    ∃ is r, openwritePblk m.heap a b c = .ok (is,r) ∧
      Writes m c b r (m.perform (is ++ registerUpdatePblk r c)) := by
  obtain ⟨is,r,hok,htidy,hcases⟩ := openwrite ht hc hb.toLive ha
  have hperform : m.perform (is ++ registerUpdatePblk r c) = m.perform is := by
    rw [Memory.perform_append,registerUpdatePblk,if_neg hc]
    rfl
  refine ⟨is,r,hok,?_⟩
  rw [hperform]
  rcases hcases with ⟨-,rfl,hm⟩ | ⟨hlt,rfl,hmakes,hlive,hepoch,hid⟩
  · rw [hm]
    exact ⟨ht,.inl rfl,fun p _ _ => .refl m p,hb,fun _ _ _ hp => hp⟩
  · have hsame : ∀ p ∈ m.allocated, p ≠ b → Same m (m.perform is) p := by
      intro p hp hne
      have h := hmakes.same fun he => ha (he ▸ hp)
      refine ⟨h.allocated,h.waiting.trans ?_,h.heap⟩
      simp [hne]
    have hold : ∀ x ∈ (m.perform is).allocated, x ≠ r →
        x ∈ m.allocated ∧ (m.perform is).heap x = m.heap x := by
      intro x hx hne
      rw [hmakes.allocated] at hx
      exact ⟨(Finset.mem_insert.mp hx).resolve_left hne,hmakes.heap x hne⟩
    refine ⟨htidy,.inr ha,hsame,⟨hlive,?_⟩,?_⟩
    · intro x hx hne hxid
      obtain ⟨hxm,hxheap⟩ := hold x hx hne
      rw [hid,hxheap] at hxid
      rw [hepoch,hxheap]
      by_cases hxb : x = b
      · rwa [hxb]
      · exact (hb.newest x hxm hxb hxid).trans hlt
    · intro p c' hne hp
      refine hp.carry (hsame p hp.allocated hne) ?_
      intro x hx _ hxid
      by_cases hxr : x = r
      · rw [hxr,hid] at hxid
        exact absurd hxid.symm (hp.ids hb hne)
      · exact .inl (hold x hx hxr)

section Bodies
variable {K V : Type} [LinearOrder K] (hash : K → Nat) (idxSize : Nat)

structure Fit (i c : Nat) (w : Section K V) : Prop where
  tidy : Tidy w.mem
  nodes : ∀ p ∈ w.bucket, Current w.mem c p
  place : ∀ p ∈ w.bucket, hash (w.content p).key % idxSize = i
  sorted : Sorted w.content w.bucket

/-- What a body does: its effect on the bucket, and nothing to the payloads that are neither in
the bucket nor its own. -/
structure Performs (i c : Nat) (call : Call K V) (newNode : Option Addr) (w w' : Section K V)
    (ret : Result V) : Prop where
  fit : Fit hash idxSize i c w'
  thread : w'.thread = w.thread
  same : ∀ p ∈ w.mem.allocated, p ∉ w.bucket → newNode ≠ some p →
    Same w.mem w'.mem p ∧ w'.content p = w.content p ∧ p ∉ w'.bucket
  current : ∀ p c', p ∉ w.bucket → newNode ≠ some p → Current w.mem c' p → Current w'.mem c' p
  effect : Effect w.content w.bucket call w'.content w'.bucket ret

structure Owns (c : Nat) (w : Section K V) (key : K) (val : V) (newNode : Addr) : Prop where
  current : Current w.mem c newNode
  content : w.content newNode = ⟨key,val⟩
  unlinked : newNode ∉ w.bucket

variable {hash idxSize} {i : Nat} {w : Section K V} {al : Allocator} {key : K} {val : V}
  {curr newNode : Addr} {before after : List Addr}

omit [LinearOrder K] in
theorem set_val_ok (al : Allocator) (val : V) (ht : Tidy w.mem) (hepoch : w.thread.epoch = some c)
    (hc : c ≠ nullEpoch) (hcurr : Current w.mem c curr) :
    ∃ m' content' r, w.setVal al curr val = .ok ({ w with mem := m', content := content' },r) ∧
      Writes w.mem c curr r m' ∧ content' r = ⟨(w.content curr).key,val⟩ ∧
      ∀ p ≠ r, content' p = w.content p := by
  obtain ⟨is,r,hok,hwrites⟩ := set_val_writes ht hc hcurr (al.fresh_not_mem w.mem.allocated)
  refine ⟨_,_,r,?_,hwrites,Function.update_self ..,fun p hp => Function.update_of_ne hp _ _⟩
  simp only [Section.setVal,hepoch,hok,bind,Except.bind,pure,Except.pure]

omit [LinearOrder K] in
theorem delete_ok (al : Allocator) (w : Section K V) (ht : Tidy w.mem)
    (hepoch : w.thread.epoch = some c) (hb : Live w.mem c b) :
    ∃ m', w.delete al b = .ok { w with mem := m' } ∧ Frees w.mem b m' := by
  obtain ⟨m',hok,hfrees⟩ := pdelete_inside ht hepoch hb (al.fresh_not_mem w.mem.allocated)
  refine ⟨m',?_,hfrees⟩
  simp only [Section.delete,hok,bind,Except.bind,pure,Except.pure]

section
variable (hf : Fit hash idxSize i c w)
include hf

theorem Fit.split (hlist : w.bucket = before ++ curr :: after) :
    Current w.mem c curr ∧ curr ∉ before ++ after ∧ ∀ p ∈ before ++ after, p ∈ w.bucket := by
  have hs := hf.sorted
  rw [hlist] at hs
  obtain ⟨-,hb,ha⟩ := hs.around
  refine ⟨hf.nodes curr (by simp [hlist]),?_,?_⟩
  · intro hmem
    rcases mem_append.mp hmem with h | h
    · exact lt_irrefl _ (hb curr h)
    · exact lt_irrefl _ (ha curr h)
  · intro p hp
    rw [hlist]
    rcases mem_append.mp hp with h | h
    · exact mem_append_left _ h
    · exact mem_append_right _ (mem_cons_of_mem _ h)

omit hf in
theorem link_performs (call : Call K V) (hf : Fit hash idxSize i c w)
    (hi : hash call.key % idxSize = i) (hown : Owns c w call.key val newNode)
    (hlist : w.bucket = before ++ after)
    (hb : ∀ p ∈ before, (w.content p).key < call.key)
    (ha : ∀ p ∈ after, call.key < (w.content p).key)
    (heffect : call.effect none = (some val,ret)) :
    Performs hash idxSize i c call (some newNode) w
      { w with bucket := before ++ newNode :: after } ret := by
  have hs := hf.sorted
  rw [hlist] at hs
  obtain ⟨hsorted,heff⟩ := effect_new call hs hown.content hb ha heffect
  have hmem : ∀ p ∈ before ++ newNode :: after, p = newNode ∨ p ∈ w.bucket := by
    intro p hp
    rw [hlist]
    simp only [mem_append,mem_cons] at hp ⊢
    tauto
  refine ⟨⟨hf.tidy,?_,?_,hsorted⟩,rfl,?_,fun _ _ _ _ hp => hp,?_⟩
  · intro p hp
    rcases hmem p hp with rfl | hp
    · exact hown.current
    · exact hf.nodes p hp
  · intro p hp
    rcases hmem p hp with rfl | hp
    · rw [hown.content]
      exact hi
    · exact hf.place p hp
  · intro p _ hp hne
    refine ⟨.refl _ p,rfl,?_⟩
    intro hnew
    rcases hmem p hnew with rfl | hnew
    · exact hne rfl
    · exact hp hnew
  · rw [hlist]
    exact heff

theorem put_ok (hi : hash key % idxSize = i)
    (hepoch : w.thread.epoch = some c) (hc : c ≠ nullEpoch) (hown : Owns c w key val newNode) :
    ∃ w' ret, w.put al key val newNode = .ok (w',ret) ∧
      Performs hash idxSize i c (.put key val) (some newNode) w w' ret := by
  unfold Section.put
  split
  next before curr after hsearch =>
    obtain ⟨hlist,hkey⟩ := search_equal hsearch
    rw [nil_append] at hlist
    obtain ⟨hcurr,hnot,hrest⟩ := hf.split hlist
    have hcurrIn : curr ∈ w.bucket := by simp [hlist]
    obtain ⟨m1,content',r,hset,hw,hnew,hsame⟩ := set_val_ok al val hf.tidy hepoch hc hcurr
    have hne : newNode ≠ curr := fun he => hown.unlinked (he ▸ hcurrIn)
    have hold : ∀ p ∈ w.mem.allocated, p ≠ curr → p ≠ r := by
      intro p hp hpc he
      rcases hw.fresh with hr | hr
      · exact hpc (he.trans hr)
      · exact hr (he ▸ hp)
    have hnode := hw.others _ _ hne hown.current
    have hrnode : r ≠ newNode := (hold _ hown.current.allocated hne).symm
    rw [hkey] at hnew
    obtain ⟨m2,hdelete,hfrees⟩ := delete_ok al { w with
      mem := m1
      content := content'
      bucket := before ++ r :: after } hw.tidy hepoch hnode.toLive
    refine ⟨_,_,by simp only [hset,bind,Except.bind,hdelete,pure,Except.pure]; rfl,?_⟩
    have hr : r ∉ before ++ after := by
      intro hmem
      have hp := hrest r hmem
      exact hold r (hf.nodes r hp).allocated (fun he => hnot (he ▸ hmem)) rfl
    have hs := hf.sorted
    rw [hlist] at hs
    obtain ⟨hsorted,heff⟩ := effect_put_equal hs hkey hr hnew hsame
    have hmem : ∀ p ∈ before ++ r :: after, p = r ∨ p ∈ before ++ after := by
      intro p hp
      simp only [mem_append,mem_cons] at hp ⊢
      tauto
    have hplace : ∀ p ∈ before ++ r :: after, hash (content' p).key % idxSize = i := by
      intro p hp
      rcases hmem p hp with rfl | hp
      · rw [hnew]
        exact hi
      · rw [hsame p fun he => hr (he ▸ hp)]
        exact hf.place p (hrest p hp)
    refine ⟨⟨hfrees.tidy,?_,hplace,hsorted⟩,rfl,?_,?_,?_⟩
    · intro p hp
      rcases hmem p hp with rfl | hp
      · exact hw.current.frees hnode hrnode hfrees
      · have hpb := hrest p hp
        exact (hw.others p c (fun he => hnot (he ▸ hp)) (hf.nodes p hpb)).frees hnode
          (fun he => hown.unlinked (he ▸ hpb)) hfrees
    · intro p hp hpb hpn
      have hpc : p ≠ curr := fun he => hpb (he ▸ hcurrIn)
      have hpr := hold p hp hpc
      have hset := hw.same p hp hpc
      refine ⟨hset.trans (hfrees.same p (hset.allocated.mpr hp) fun he => hpn (he ▸ rfl)),
        hsame p hpr,?_⟩
      intro hnew
      rcases hmem p hnew with he | hnew
      · exact hpr he
      · exact hpb (hrest p hnew)
    · intro p c' hpb hpn hp
      have hpc : p ≠ curr := fun he => hpb (he ▸ hcurrIn)
      exact (hw.others p c' hpc hp).frees hnode (fun he => hpn (he ▸ rfl)) hfrees
    · rw [hlist]
      exact heff
  next hsearch =>
    obtain ⟨hlist,hb,ha⟩ := search_absent hf.sorted (by simp) hsearch
    exact ⟨_,_,rfl,link_performs (.put key val) hf hi hown hlist hb ha rfl⟩

theorem insert_ok (hi : hash key % idxSize = i)
    (hepoch : w.thread.epoch = some c) (hown : Owns c w key val newNode) :
    ∃ w' ret, w.insert al key newNode = .ok (w',ret) ∧
      Performs hash idxSize i c (.insert key val) (some newNode) w w' ret := by
  unfold Section.insert
  split
  next hsearch =>
    obtain ⟨hlist,hkey⟩ := search_equal hsearch
    rw [nil_append] at hlist
    obtain ⟨m',hdelete,hfrees⟩ := delete_ok al w hf.tidy hepoch hown.current.toLive
    refine ⟨_,_,by simp only [hdelete,bind,Except.bind,pure,Except.pure]; rfl,?_⟩
    have hne : ∀ p ∈ w.bucket, p ≠ newNode := fun p hp he => hown.unlinked (he ▸ hp)
    refine ⟨⟨hfrees.tidy,?_,hf.place,hf.sorted⟩,rfl,?_,?_,?_⟩
    · exact fun p hp => (hf.nodes p hp).frees hown.current (hne p hp) hfrees
    · exact fun p hp hpb hpn => ⟨hfrees.same p hp fun he => hpn (he ▸ rfl),rfl,hpb⟩
    · exact fun p c' _ hpn hp => hp.frees hown.current (fun he => hpn (he ▸ rfl)) hfrees
    · have hs := hf.sorted
      simp only [hlist] at hs ⊢
      exact effect_insert_equal hs hkey
  next hsearch =>
    obtain ⟨hlist,hb,ha⟩ := search_absent hf.sorted (by simp) hsearch
    exact ⟨_,_,rfl,link_performs (.insert key val) hf hi hown hlist hb ha rfl⟩

theorem remove_ok (hepoch : w.thread.epoch = some c) : ∃ w' ret, w.remove al key = .ok (w',ret) ∧
      Performs hash idxSize i c (.remove key) none w w' ret := by
  unfold Section.remove
  split
  next before curr after hsearch =>
    obtain ⟨hlist,hkey⟩ := search_equal hsearch
    rw [nil_append] at hlist
    obtain ⟨hcurr,hnot,hrest⟩ := hf.split hlist
    have hcurrIn : curr ∈ w.bucket := by simp [hlist]
    obtain ⟨m',hdelete,hfrees⟩ := delete_ok al { w with bucket := before ++ after }
      hf.tidy hepoch hcurr.toLive
    refine ⟨_,_,by simp only [hdelete,bind,Except.bind,pure,Except.pure]; rfl,?_⟩
    have hs := hf.sorted
    rw [hlist] at hs
    obtain ⟨hsorted,heff⟩ := effect_remove_equal hs hkey
    refine ⟨⟨hfrees.tidy,?_,fun p hp => hf.place p (hrest p hp),hsorted⟩,rfl,?_,?_,?_⟩
    · exact fun p hp => (hf.nodes p (hrest p hp)).frees hcurr (fun he => hnot (he ▸ hp)) hfrees
    · exact fun p hp hpb _ => ⟨hfrees.same p hp fun he => hpb (he ▸ hcurrIn),rfl,
        fun hnew => hpb (hrest p hnew)⟩
    · exact fun p c' hpb _ hp => hp.frees hcurr (fun he => hpb (he ▸ hcurrIn)) hfrees
    · rw [hlist]
      exact heff
  next hsearch =>
    obtain ⟨hlist,hb,ha⟩ := search_absent hf.sorted (by simp) hsearch
    refine ⟨_,_,rfl,hf,rfl,fun p _ hpb _ => ⟨.refl _ p,rfl,hpb⟩,fun _ _ _ _ hp => hp,?_⟩
    rw [← nil_append w.bucket,hlist]
    exact effect_remove_absent hb ha

theorem get_performs :
    Performs hash idxSize i c (.get key) none w w (.value (lookup w.content key w.bucket)) :=
  ⟨hf,rfl,fun p _ hpb _ => ⟨.refl _ p,rfl,hpb⟩,fun _ _ _ _ hp => hp,rfl,fun _ _ => rfl⟩

end

end Bodies

end Montage.MontageHashTable
