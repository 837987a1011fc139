import Montage.SSHashTable.Lists

namespace Montage.SSHashTable
open Library Function List

variable {K V : Type} (hash : K → BitVec 64) (k : Nat)

def Fits (i : Nat) (n : Node K V) : Prop :=
  (∀ key val, n.payload = some (key,val) →
    n.soK = soRegularkey (hash key) ∧ (hash key).toNat % 2 ^ k = i) ∧
  (n.payload = none → n.soK.getLsbD 0 = false)

structure Bucket (s : State K V) (i : Nat) (l : List Addr) : Prop where
  list : Lists s (.bucket i) l
  made : ∀ a ∈ l, a < s.fresh
  sorted : l.Pairwise fun a b => (s.node a).soK ≤ (s.node b).soK
  fits : ∀ a ∈ l, Fits hash k i (s.node a)
  keys : ∀ a ∈ l, ∀ b ∈ l, ∀ key val val', (s.node a).payload = some (key,val) →
    (s.node b).payload = some (key,val') → a = b

structure Table (s : State K V) (ls : Nat → List Addr) : Prop where
  bucket : ∀ i, Bucket hash k s i (ls i)
  apart : ∀ i j a, a ∈ ls i → a ∈ ls j → i = j

def Represents (s : State K V) (ls : Nat → List Addr) (m : K → Option V) : Prop :=
  ∀ key val, m key = some val ↔
    ∃ a ∈ ls ((hash key).toNat % 2 ^ k), (s.node a).payload = some (key,val)

variable {hash k} {s s' : State K V} {ls ls' : Nat → List Addr} {i : Nat} {a node : Addr} {key : K}
  {val : V} {m : K → Option V} {so : BitVec 64} {l : List Addr}

theorem Bucket.congr (h : Bucket hash k s i l)
    (hcell : ∀ d ∈ Cell.bucket i :: l.map Cell.next, s'.cell d = s.cell d)
    (hnode : ∀ a ∈ l, s'.node a = s.node a) (hfresh : s.fresh ≤ s'.fresh) :
    Bucket hash k s' i l where
  list := h.list.congr hcell
  made := fun a ha => lt_of_lt_of_le (h.made a ha) hfresh
  sorted := by
    refine List.Pairwise.imp_of_mem ?_ h.sorted
    intro a b ha hb hle
    rwa [hnode a ha,hnode b hb]
  fits := by
    intro a ha
    rw [hnode a ha]
    exact h.fits a ha
  keys := by
    intro a ha b hb key val val'
    rw [hnode a ha,hnode b hb]
    exact h.keys a ha b hb key val val'

theorem Bucket.length (h : Bucket hash k s i l) : l.length < s.fresh + 1 := by
  have hnodup : l.Nodup := (nodup_cons.mp h.list.chain.nodup).2.of_map _
  have hcard := Finset.card_le_card (s := l.toFinset) (t := Finset.range s.fresh) (by
    intro a ha
    rw [Finset.mem_range]
    exact h.made a (mem_toFinset.mp ha))
  rw [toFinset_card_of_nodup hnodup,Finset.card_range] at hcard
  omega

theorem list_find_ok [DecidableEq K] [Inhabited K] (h : Bucket hash k s i l) (so : BitVec 64) (key : K) :
    ∃ r before after, listFind s (.bucket i) so key = .ok (s,r) ∧
      Stops s (.bucket i) l so key r before after :=
  find_loop_ok h.list h.length

theorem Fits.regular [Inhabited K] (hf : Fits hash k i (s.node a))
    (hm : Matches s (soRegularkey (hash key)) key a) :
    ∃ val, (s.node a).payload = some (key,val) := by
  cases hp : (s.node a).payload with
  | none =>
    have heven := hf.2 hp
    rw [hm.1,so_regularkey_odd] at heven
    cases heven
  | some kv =>
    obtain ⟨key',val⟩ := kv
    have hkey := hm.2
    rw [State.getKey,hp] at hkey
    exact ⟨val,by rw [← hkey]; rfl⟩

theorem Fits.matches [Inhabited K] (hf : Fits hash k i (s.node a))
    (hp : (s.node a).payload = some (key,val)) :
    Matches s (soRegularkey (hash key)) key a :=
  ⟨(hf.1 key val hp).1,by rw [State.getKey,hp]; rfl⟩

theorem Stops.none_matches [Inhabited K] {r : Found} {before after : List Addr}
    (hs : Stops s (.bucket i) l so key r before after) (hl : Bucket hash k s i l)
    (hr : r.found = false) : (∀ b ∈ after, so < (s.node b).soK) ∧ ∀ b ∈ l, ¬Matches s so key b := by
  have hafter : ∀ b ∈ after, so < (s.node b).soK := by
    have hsorted := hl.sorted
    rw [hs.list] at hsorted
    obtain ⟨-,hsorted,-⟩ := pairwise_append.mp hsorted
    cases after with
    | nil => simp
    | cons b =>
      have hb := hs.absent hr b rfl
      intro b' hb'
      rcases mem_cons.mp hb' with rfl | hb'
      · exact hb
      · exact Nat.lt_of_lt_of_le hb ((pairwise_cons.mp hsorted).1 b' hb')
  refine ⟨hafter,?_⟩
  intro b hb hmatch
  rw [hs.list] at hb
  rcases mem_append.mp hb with hb | hb
  · exact (hs.passed b hb).2 hmatch
  · exact absurd hmatch.1 (BitVec.ne_of_lt (hafter b hb)).symm

structure Grows (s : State K V) (ls : Nat → List Addr) (s' : State K V) (ls' : Nat → List Addr) :
    Prop where
  fresh : s.fresh ≤ s'.fresh
  node : ∀ a < s.fresh, s'.node a = s.node a
  old : ∀ i a, a < s.fresh → (a ∈ ls' i ↔ a ∈ ls i)
  new : ∀ i, ∀ a ∈ ls' i, s.fresh ≤ a → (s'.node a).payload = none
  size : s'.size = s.size
  count : s'.count = s.count
  fault : s'.fault = s.fault

theorem Grows.refl (s : State K V) (ls : Nat → List Addr) (hmade : ∀ i, ∀ a ∈ ls i, a < s.fresh) :
    Grows s ls s ls :=
  ⟨le_rfl,fun _ _ => rfl,fun _ _ _ => .rfl,
    fun i a ha hge => absurd (hmade i a ha) (not_lt.mpr hge),rfl,rfl,rfl⟩

theorem Grows.trans {s'' : State K V} {ls'' : Nat → List Addr} (h : Grows s ls s' ls')
    (h' : Grows s' ls' s'' ls'') : Grows s ls s'' ls'' where
  fresh := h.fresh.trans h'.fresh
  node := fun a ha => (h'.node a (lt_of_lt_of_le ha h.fresh)).trans (h.node a ha)
  old := fun i a ha => (h'.old i a (lt_of_lt_of_le ha h.fresh)).trans (h.old i a ha)
  new := by
    intro i a ha hge
    by_cases hlt : a < s'.fresh
    · rw [h'.node a hlt]
      exact h.new i a ((h'.old i a hlt).mp ha) hge
    · exact h'.new i a ha (not_lt.mp hlt)
  size := h'.size.trans h.size
  count := h'.count.trans h.count
  fault := h'.fault.trans h.fault

theorem Represents.grows (hr : Represents hash k s ls m) (ht : Table hash k s ls)
    (hg : Grows s ls s' ls') : Represents hash k s' ls' m := by
  intro key val
  rw [hr key val]
  constructor
  · rintro ⟨a,ha,hp⟩
    have hlt := (ht.bucket _).made a ha
    exact ⟨a,(hg.old _ a hlt).mpr ha,by rw [hg.node a hlt]; exact hp⟩
  · rintro ⟨a,ha,hp⟩
    by_cases hlt : a < s.fresh
    · exact ⟨a,(hg.old _ a hlt).mp ha,by rw [← hg.node a hlt]; exact hp⟩
    · rw [hg.new _ a ha (not_lt.mp hlt)] at hp
      cases hp

structure Same (s s' : State K V) : Prop where
  node : s'.node = s.node
  fresh : s'.fresh = s.fresh
  size : s'.size = s.size
  count : s'.count = s.count
  fault : s'.fault = s.fault

theorem Grows.link {before after : List Addr} {s1 s2 : State K V} (hg : Grows s ls s1 ls')
    (hsame : Same s1 s2) (hlist : ls' i = before ++ after) (hge : s.fresh ≤ node)
    (hdummy : (s1.node node).payload = none) :
    Grows s ls s2 (update ls' i (before ++ node :: after)) where
  fresh := hsame.fresh ▸ hg.fresh
  node := fun a ha => by
    rw [hsame.node]
    exact hg.node a ha
  old := by
    intro j a ha
    rw [← hg.old j a ha]
    by_cases hj : j = i
    · subst hj
      have hne : a ≠ node := ne_of_lt (lt_of_lt_of_le ha hge)
      simp [hlist,hne]
    · rw [update_of_ne hj]
  new := by
    intro j a ha hfresh
    rw [hsame.node]
    by_cases hj : j = i
    · subst hj
      rw [update_self] at ha
      by_cases hn : a = node
      · rw [hn]
        exact hdummy
      · refine hg.new j a ?_ hfresh
        rw [hlist]
        simp only [mem_append,mem_cons] at ha ⊢
        tauto
    · rw [update_of_ne hj] at ha
      exact hg.new j a ha hfresh
  size := hsame.size.trans hg.size
  count := hsame.count.trans hg.count
  fault := hsame.fault.trans hg.fault

section
variable (ht : Table hash k s ls)
include ht

theorem new_node_table (n : Node K V) :
    Table hash k (s.newNode n).1 ls ∧ Grows s ls (s.newNode n).1 ls := by
  have hnode : ∀ a < s.fresh, (s.newNode n).1.node a = s.node a :=
    fun a ha => update_of_ne (ne_of_lt ha) _ _
  refine ⟨⟨fun i => ?_,ht.apart⟩,⟨Nat.le_succ _,hnode,fun _ _ _ => .rfl,?_,rfl,rfl,rfl⟩⟩
  · refine (ht.bucket i).congr ?_ (fun a ha => hnode a ((ht.bucket i).made a ha)) (Nat.le_succ _)
    intro d hd
    refine update_of_ne ?_ _ _
    rintro rfl
    rcases mem_cons.mp hd with hd | hd
    · cases hd
    · obtain ⟨a,ha,he⟩ := mem_map.mp hd
      cases he
      exact lt_irrefl _ ((ht.bucket i).made _ ha)
  · exact fun i a ha hge => absurd ((ht.bucket i).made a ha) (not_lt.mpr hge)

theorem Table.update (hl : Bucket hash k s' i l)
    (hcell : ∀ d, d ∉ Cell.bucket i :: (ls i).map Cell.next → (∀ a, d = .next a → ∃ j, a ∈ ls j) →
      s'.cell d = s.cell d)
    (hnode : s'.node = s.node) (hfresh : s'.fresh = s.fresh)
    (hmem : ∀ a ∈ l, a ∈ ls i ∨ ∀ j, a ∉ ls j) : Table hash k s' (update ls i l) where
  bucket := by
    intro j
    by_cases hj : j = i
    · subst hj
      rw [update_self]
      exact hl
    · rw [update_of_ne hj]
      refine (ht.bucket j).congr ?_ (fun a _ => by rw [hnode]) hfresh.ge
      intro d hd
      refine hcell d ?_ ?_
      · intro hd'
        rcases mem_cons.mp hd with rfl | hd
        · rcases mem_cons.mp hd' with hd' | hd'
          · exact hj (Cell.bucket.inj hd')
          · simp at hd'
        · obtain ⟨a,ha,rfl⟩ := mem_map.mp hd
          rcases mem_cons.mp hd' with hd' | hd'
          · cases hd'
          · obtain ⟨a',ha',he⟩ := mem_map.mp hd'
            cases he
            exact hj (ht.apart j i _ ha ha')
      · rintro a rfl
        rcases mem_cons.mp hd with hd | hd
        · cases hd
        · obtain ⟨a',ha',he⟩ := mem_map.mp hd
          cases he
          exact ⟨j,ha'⟩
  apart := by
    have hout : ∀ j a, j ≠ i → a ∈ l → a ∉ ls j := by
      intro j a hj ha haj
      rcases hmem a ha with hi | hnone
      · exact hj (ht.apart j i a haj hi)
      · exact hnone j haj
    intro j j' a ha ha'
    by_cases hj : j = i
    · subst hj
      rw [update_self] at ha
      by_contra hne
      rw [update_of_ne (Ne.symm hne)] at ha'
      exact hout j' a (Ne.symm hne) ha ha'
    · rw [update_of_ne hj] at ha
      by_cases hj' : j' = i
      · subst hj'
        rw [update_self] at ha'
        exact absurd ha (hout j a hj ha')
      · rw [update_of_ne hj'] at ha'
        exact ht.apart j j' a ha ha'

variable [DecidableEq K] [Inhabited K]

/-- `list_insert` of a node that fits: it finds one like it, or links the node where it
belongs. -/
theorem list_insert_ok (i : Nat) (hlt : node < s.fresh)
    (hunlinked : ∀ j, node ∉ ls j) (hfits : Fits hash k i (s.node node)) :
    (∃ a ∈ ls i, listInsert s (.bucket i) node = .ok (s,false,some a) ∧
      Matches s (s.node node).soK (s.getKey node) a) ∨
    ∃ s' before after curr, listInsert s (.bucket i) node = .ok (s',true,curr) ∧
      ls i = before ++ after ∧ Table hash k s' (update ls i (before ++ node :: after)) ∧
      Same s s' ∧ ∀ b ∈ ls i, ¬Matches s (s.node node).soK (s.getKey node) b := by
  have hb := ht.bucket i
  obtain ⟨r,before,after,hfind,hstops⟩ := list_find_ok hb (s.node node).soK (s.getKey node)
  cases hr : r.found with
  | true =>
    obtain ⟨a,ha,hmatch⟩ := hstops.found hr
    refine .inl ⟨a,?_,?_,hmatch⟩
    · rw [hstops.list]
      exact mem_append_right _ (mem_of_mem_head? ha)
    · simp only [listInsert,hfind,bind,Except.bind,hr,if_true,hstops.curr,ha,pure,Except.pure]
  | false =>
    obtain ⟨hafter,hnone⟩ := hstops.none_matches hb hr
    obtain ⟨cs,hprev⟩ := hstops.prev
    have hlist := hb.list
    have hsorted := hb.sorted
    rw [hstops.list] at hlist hsorted
    have hnot : Cell.next node ∉ Cell.bucket i :: (before ++ after).map Cell.next := by
      simpa [← hstops.list] using hunlinked i
    have hmem : ∀ b ∈ before ++ node :: after, b = node ∨ b ∈ ls i := by
      intro b hb
      rw [hstops.list]
      simp only [mem_append,mem_cons] at hb ⊢
      tauto
    have hok : listInsert s (.bucket i) node =
        .ok ((s.set (.next node) after.head? false).set r.prev (some node) false,true,r.curr) := by
      simp [listInsert,hfind,bind,Except.bind,hr,hstops.curr,pure,Except.pure]
    refine .inr ⟨_,before,after,_,hok,hstops.list,?_,⟨rfl,rfl,rfl,rfl,rfl⟩,hnone⟩
    refine ht.update ⟨hlist.link hprev hnot,?_,?_,?_,?_⟩ ?_ rfl rfl ?_
    · intro b hb'
      rcases hmem b hb' with rfl | hb'
      · exact hlt
      · exact hb.made b hb'
    · obtain ⟨hs1,hs2,hs12⟩ := pairwise_append.mp hsorted
      refine pairwise_append.mpr ⟨hs1,pairwise_cons.mpr ⟨?_,hs2⟩,?_⟩
      · exact fun b hb' => Nat.le_of_lt (hafter b hb')
      · intro x hx y hy
        rcases mem_cons.mp hy with rfl | hy
        · exact (hstops.passed x hx).1
        · exact hs12 x hx y hy
    · intro b hb'
      rcases hmem b hb' with rfl | hb'
      · exact hfits
      · exact hb.fits b hb'
    · -- no other node has the key of the new one
      have hother : ∀ x ∈ ls i, ∀ key val val', (s.node node).payload = some (key,val) →
          (s.node x).payload ≠ some (key,val') := by
        intro x hx key val val' hpn hpx
        have hkey : s.getKey node = key := by
          rw [State.getKey,hpn]
          rfl
        refine hnone x hx ?_
        rw [hkey,(hfits.1 key val hpn).1]
        exact (hb.fits x hx).matches hpx
      intro x hx y hy key val val' hpx hpy
      rcases hmem x hx with hxn | hxi
      · subst hxn
        rcases hmem y hy with hyn | hyi
        · exact hyn.symm
        · exact absurd hpy (hother y hyi key val val' hpx)
      · rcases hmem y hy with hyn | hyi
        · subst hyn
          exact absurd hpx (hother x hxi key val' val hpy)
        · exact hb.keys x hxi y hyi key val val' hpx hpy
    · intro d hd hlinked
      have hdp : d ≠ r.prev := by
        rintro rfl
        refine hd ?_
        rw [hstops.list,map_append,← cons_append,hprev]
        simp
      have hdn : d ≠ Cell.next node := by
        rintro rfl
        obtain ⟨j,hj⟩ := hlinked node rfl
        exact hunlinked j hj
      simp [State.set,hdp,hdn]
    · intro b hb'
      rcases hmem b hb' with rfl | hb'
      · exact .inr hunlinked
      · exact .inl hb'

theorem list_delete_ok (key : K) : let i := (hash key).toNat % 2 ^ k
    listDelete s (.bucket i) (soRegularkey (hash key)) key = .ok (s,none) ∧
      (∀ b ∈ ls i, ∀ val, (s.node b).payload ≠ some (key,val)) ∨
    ∃ s' a val before after,
      listDelete s (.bucket i) (soRegularkey (hash key)) key = .ok (s',some val) ∧
        ls i = before ++ a :: after ∧ (s.node a).payload = some (key,val) ∧
        Table hash k s' (update ls i (before ++ after)) ∧ Same s s' := by
  intro i
  have hb := ht.bucket i
  obtain ⟨r,before,after,hfind,hstops⟩ := list_find_ok hb (soRegularkey (hash key)) key
  cases hr : r.found with
  | false =>
    obtain ⟨-,hnone⟩ := hstops.none_matches hb hr
    refine .inl ⟨?_,fun b hb' val hp => hnone b hb' ((hb.fits b hb').matches hp)⟩
    simp [listDelete,hfind,bind,Except.bind,hr,pure,Except.pure]
  | true =>
    obtain ⟨a,ha,hmatch⟩ := hstops.found hr
    obtain ⟨after,rfl⟩ : ∃ rest, after = a :: rest := by
      cases after with
      | nil => cases ha
      | cons b rest =>
        cases ha
        exact ⟨rest,rfl⟩
    obtain ⟨cs,hprev⟩ := hstops.prev
    have hlist := hb.list
    have hsorted := hb.sorted
    rw [hstops.list] at hlist hsorted
    have hsub : ∀ b ∈ before ++ after, b ∈ ls i := by
      intro b hb'
      rw [hstops.list]
      simp only [mem_append,mem_cons] at hb' ⊢
      tauto
    have hain : a ∈ ls i := by simp [hstops.list]
    obtain ⟨val,hval⟩ := (hb.fits a hain).regular hmatch
    have hok : listDelete s (.bucket i) (soRegularkey (hash key)) key =
        .ok ((s.set (.next a) (s.cell (.next a)).ptr true).set r.prev (s.cell (.next a)).ptr false,
          some val) := by
      simp [listDelete,hfind,bind,Except.bind,hr,hstops.curr,hval,pure,Except.pure]
    refine .inr ⟨_,a,val,before,after,hok,hstops.list,hval,?_,⟨rfl,rfl,rfl,rfl,rfl⟩⟩
    refine ht.update ⟨hlist.unlink hprev,fun b hb' => hb.made b (hsub b hb'),?_,
      fun b hb' => hb.fits b (hsub b hb'),
      fun x hx y hy => hb.keys x (hsub x hx) y (hsub y hy)⟩ ?_ rfl rfl fun b hb' => .inl (hsub b hb')
    · exact hsorted.sublist ((sublist_cons_self a after).append_left before)
    · intro d hd _
      have hdp : d ≠ r.prev := by
        rintro rfl
        refine hd ?_
        rw [hstops.list,map_append,← cons_append,hprev]
        simp
      have hda : d ≠ Cell.next a := by
        rintro rfl
        exact hd (mem_cons_of_mem _ (mem_map_of_mem hain))
      simp [State.set,hdp,hda]

/-- The dummy for a bucket is made and put into the list of another one, unless it is there
already; the compare-and-swap that follows finds a list that is not empty. -/
theorem link_dummy_ok {bucket : Nat} (hbucket : bucket < 2 ^ 63) (parent : Nat) :
    ∃ s' ls', linkDummy s bucket parent = .ok s' ∧
      Table hash k s' ls' ∧ Grows s ls s' ls' ∧ (∀ j, j ≠ parent → ls' j = ls j) ∧
      (ls parent = [] → ls' parent = [s.fresh] ∧
        s'.node s.fresh = ⟨soDummykey bucket,none⟩) := by
  obtain ⟨ht1,hg1⟩ := new_node_table ht ⟨soDummykey bucket,none⟩
  have hself : (s.newNode ⟨soDummykey bucket,none⟩).1.node s.fresh = ⟨soDummykey bucket,none⟩ :=
    update_self ..
  have hlt : s.fresh < (s.newNode ⟨soDummykey bucket,none⟩).1.fresh := Nat.lt_succ_self _
  have hcode : linkDummy s bucket parent =
      (listInsert (s.newNode ⟨soDummykey bucket,none⟩).1 (.bucket parent) s.fresh).bind fun r =>
        if r.1.cell (.bucket parent) = ⟨none,false⟩ then
          .ok (r.1.set (.bucket parent) (if r.2.1 then some s.fresh else r.2.2) false)
        else .ok r.1 := rfl
  rw [hcode]
  generalize (s.newNode ⟨soDummykey bucket,none⟩).1 = s1 at ht1 hg1 hself hlt
  have hunlinked : ∀ j, s.fresh ∉ ls j := fun j h => lt_irrefl _ ((ht.bucket j).made _ h)
  have hfits : Fits hash k parent (s1.node s.fresh) := by
    rw [hself]
    exact ⟨fun _ _ h => (by cases h),fun _ => so_dummykey_even hbucket⟩
  have hnonempty : ∀ {s' : State K V} {l : List Addr}, Lists s' (.bucket parent) l → l ≠ [] →
      ¬s'.cell (.bucket parent) = ⟨none,false⟩ := by
    intro s' l hl hne he
    have hfirst := hl.first
    rw [he] at hfirst
    exact hne (head?_eq_none_iff.mp hfirst.symm)
  rcases list_insert_ok ht1 parent hlt hunlinked hfits with
    ⟨a,ha,hok,-⟩ | ⟨s',before,after,curr,hok,hlist,ht',hsame,-⟩
  · have hne : ls parent ≠ [] := ne_nil_of_mem ha
    refine ⟨s1,ls,?_,ht1,hg1,fun _ _ => rfl,fun h => absurd h hne⟩
    rw [hok,Except.bind,if_neg (hnonempty (ht1.bucket parent).list hne)]
  · have hnew := ht'.bucket parent
    rw [update_self] at hnew
    refine ⟨s',_,?_,ht',hg1.link hsame hlist le_rfl (by rw [hself]),
      fun j hj => update_of_ne hj _ _,?_⟩
    · rw [hok,Except.bind,if_neg (hnonempty hnew.list (by simp))]
    · intro hempty
      rw [hempty] at hlist
      obtain ⟨rfl,rfl⟩ := append_eq_nil_iff.mp hlist.symm
      rw [update_self,hsame.node]
      exact ⟨rfl,hself⟩

/-- `initialize_bucket` keeps the lists, and does not touch the bucket it is called for, unless
that is bucket 0. -/
theorem initialize_bucket_ok {rounds bucket : Nat} (hr : bucket < rounds)
    (hbucket : bucket < 2 ^ 63) :
    ∃ s' ls', initializeBucket rounds s bucket = .ok s' ∧ Table hash k s' ls' ∧
      Grows s ls s' ls' ∧ (∀ j, bucket ≤ j → j ≠ 0 → ls' j = ls j) ∧
      (bucket = 0 → ls 0 = [] → ls' 0 = [s.fresh] ∧ s'.node s.fresh = ⟨soDummykey 0,none⟩) := by
  induction rounds generalizing s ls bucket with
  | zero => omega
  | succ _ ih =>
    have hparent : getParent bucket ≤ bucket := by
      by_cases hb : bucket = 0
      · simp [hb,getParent]
      · exact le_of_lt (get_parent_lt hb)
    by_cases hrec : getParent bucket ≠ 0 ∧ (s.cell (.bucket (getParent bucket))).ptr = none
    · have hb : bucket ≠ 0 := by
        rintro rfl
        exact hrec.1 rfl
      have hlt := get_parent_lt hb
      obtain ⟨s1,ls1,hok1,ht1,hg1,hsame1,-⟩ := ih ht (by omega) (lt_trans hlt hbucket)
      obtain ⟨s2,ls2,hok2,ht2,hg2,hsame2,-⟩ := link_dummy_ok ht1 hbucket (getParent bucket)
      refine ⟨s2,ls2,?_,ht2,hg1.trans hg2,?_,fun h => absurd h hb⟩
      · rw [initializeBucket,if_pos hrec]
        simp only [hok1]
        exact hok2
      · intro j hj hj0
        rw [hsame2 j (by omega),hsame1 j (by omega) hj0]
    · obtain ⟨s2,ls2,hok2,ht2,hg2,hsame2,hzero⟩ := link_dummy_ok ht hbucket (getParent bucket)
      refine ⟨s2,ls2,?_,ht2,hg2,?_,?_⟩
      · rw [initializeBucket,if_neg hrec]
        exact hok2
      · intro j hj hj0
        refine hsame2 j fun he => ?_
        have hb : bucket ≠ 0 := by
          rintro rfl
          exact hj0 he
        have hlt := get_parent_lt hb
        omega
      · rintro rfl hempty
        exact hzero hempty

end

end Montage.SSHashTable
