import Montage.Mindicator.Change

namespace Montage.Mindicator
open Function

inductive Kind where
  | mindicator
  | increasingMindicator

/-- What `init_subtree` writes: `seq` and value of each node, and `paths`. -/
structure Fields where
  seq : Way → Int
  vals : Way → Nat
  paths : Nat → List Way

def Fields.visit (kind : Kind) (w : Way) (seq : Int) (m : Fields) : Fields :=
  { m with
    seq := update m.seq w seq
    vals := match kind with
      | .mindicator => update m.vals w uint64Max
      | .increasingMindicator => m.vals }

/-- `init_subtree` for the node at `w`, where `p` has the nodes above it. -/
def initSubtree (kind : Kind) (w : Way) (p : List Way) (seq : Int) : Tree → Fields → Fields
  | .null, m => m
  | .leaf i _, m =>
    let m := m.visit kind w seq
    { m with paths := update m.paths i (match kind with
      | .mindicator => p
      | .increasingMindicator => p ++ [w]) }
  | .node _ l r, m =>
    let m := m.visit kind w seq
    let m := initSubtree kind (false :: w) (p ++ [w]) 0 l m
    initSubtree kind (true :: w) (p ++ [w]) 1 r m

/-- The constructors, which are `none` where an assertion fails, a loop goes on for ever or the front
or back of an empty list is used. -/
def construct (kind : Kind) (actual : Nat) : Option (Tree × Fields) :=
  let cnt := threadCnt actual
  -- `thread_cnt` is an `int`
  if actual = 0 ∨ 2 ^ 31 ≤ cnt then none
  else
    let full := (fullLayers cnt).buffer
    let last := lastLayer cnt
    let buffer := last.buffer ++ last.tail
    if full.length < cnt / 2 ∨ full.length < cnt - full.length then none
    else if ¬(buffer.length = cnt ∨ buffer.length = 2) ∨ buffer.length < cnt then none
    else
      let root := linkLeaves actual last.tree (buffer.take cnt)
      some (root,initSubtree kind [] [] (-1) root
        ⟨fun _ => -1,fun w => (root.sub w).elim nullEpoch Tree.val,fun _ => []⟩)

def Kind.pathTo : Kind → Way → List Way
  | .mindicator, w => (Marked.path w).reverse
  | .increasingMindicator, w => (w :: Marked.path w).reverse

structure WellFormed (kind : Kind) (cnt : Nat) (t : Tree) (m : Fields) : Prop where
  full : Paired t
  leaves : t.entries.map Prod.fst = List.range cnt
  level : ∀ u w i j a b, t.sub u = some (.leaf i a) → t.sub w = some (.leaf j b) →
    u.length ≤ w.length + 1
  seq : ∀ b w n, t.sub (b :: w) = some n → m.seq (b :: w) = if b then 1 else 0
  paths : ∀ w i a, t.sub w = some (.leaf i a) → m.paths i = kind.pathTo w

variable {kind : Kind} {t tree : Tree} {u w : Way} {m : Fields}

theorem suffix_cases (h : w <:+ u) : u = w ∨ ∃ b, (b :: w) <:+ u := by
  obtain ⟨x,rfl⟩ := h
  rcases List.eq_nil_or_concat x with rfl | ⟨x,b,rfl⟩
  · exact .inl rfl
  · exact .inr ⟨b,x,by simp⟩

theorem not_suffix_self (b : Bool) (w : Way) : ¬(b :: w) <:+ w := by
  intro h
  have := h.length_le
  rw [List.length_cons] at this
  omega

theorem not_suffix_right (h : (false :: w) <:+ u) : ¬(true :: w) <:+ u := by
  intro h'
  cases (List.suffix_of_suffix_length_le h h' le_rfl).eq_of_length rfl

theorem sub_append (t : Tree) (u w : Way) : t.sub (u ++ w) = (t.sub w).bind fun n => n.sub u := by
  induction u with
  | nil => simp [Tree.sub]
  | cons b u ih =>
    rw [List.cons_append,Tree.sub,ih]
    cases t.sub w <;> rfl

theorem sub_tips (h : tree.sub w = some t) : ∀ x ∈ t.tips, (w.reverse ++ x.1,x.2) ∈ tree.tips := by
  induction w generalizing t with
  | nil =>
    cases h
    exact fun x hx => hx
  | cons b w ih =>
    obtain ⟨v,l,r,hw,rfl⟩ := sub_child h
    intro x hx
    rw [List.reverse_cons,List.append_assoc]
    refine ih hw (b :: x.1,x.2) ?_
    cases b <;> simp [Tree.tips] at hx ⊢ <;> exact hx

theorem leaf_entry (h : t.sub w = some (.leaf i a)) : i ∈ t.entries.map Prod.fst := by
  have htip := sub_tips h ([],some (i,a)) (by simp [Tree.tips])
  rw [entries_eq_tips]
  exact List.mem_map.mpr ⟨(i,a),List.mem_filterMap.mpr ⟨_,htip,rfl⟩,rfl⟩

theorem paired_sub (h : Paired tree) (hw : tree.sub w = some t) :
    Paired t ∨ ∃ i a, t = .leaf i a := by
  induction w generalizing t with
  | nil =>
    cases hw
    exact .inl h
  | cons b w ih =>
    obtain ⟨v,l,r,hnode,rfl⟩ := sub_child hw
    rcases ih hnode with hp | ⟨i,a,hleaf⟩
    · cases hp with
      | pair => cases b <;> exact .inr ⟨_,_,rfl⟩
      | node hl hr => cases b <;> first | exact .inl hl | exact .inl hr
    · cases hleaf

theorem visit_seq (kind : Kind) {seq : Int} (hu : ¬w <:+ u) : (m.visit kind w seq).seq u = m.seq u := by
  refine update_of_ne ?_ _ _
  rintro rfl
  exact hu List.suffix_rfl

theorem init_subtree_seq_frame {p : List Way} {seq : Int} (hu : ¬w <:+ u) :
    (initSubtree kind w p seq t m).seq u = m.seq u := by
  induction t generalizing w p seq m with
  | null => rfl
  | leaf i a => exact visit_seq kind hu
  | node a l r ihl ihr =>
    have hchild : ∀ b, ¬(b :: w) <:+ u := fun b h => hu ((List.suffix_cons b w).trans h)
    rw [initSubtree,ihr (hchild true),ihl (hchild false)]
    exact visit_seq kind hu

theorem init_subtree_paths_frame {p : List Way} {seq : Int} (hi : i ∉ t.entries.map Prod.fst) :
    (initSubtree kind w p seq t m).paths i = m.paths i := by
  induction t generalizing w p seq m with
  | null => rfl
  | leaf j a => exact update_of_ne (by simpa [Tree.entries] using hi) _ _
  | node a l r ihl ihr =>
    rw [Tree.entries,List.map_append,List.mem_append,not_or] at hi
    rw [initSubtree,ihr hi.2,ihl hi.1]
    rfl

def side : Way → Int
  | [] => -1
  | b :: _ => if b then 1 else 0

theorem node_above {n : Tree} (h : (b :: w) <:+ u) (hu : tree.sub u = some n) :
    ∃ a l r, tree.sub w = some (.node a l r) := by
  obtain ⟨x,rfl⟩ := h
  rw [sub_append] at hu
  obtain ⟨c,hc,-⟩ := Option.bind_eq_some_iff.mp hu
  obtain ⟨a,l,r,hw,-⟩ := sub_child hc
  exact ⟨a,l,r,hw⟩

theorem init_subtree_spec {p : List Way} {n : Tree} (hp : p = (Marked.path w).reverse)
    (hd : (t.entries.map Prod.fst).Nodup) (hw : tree.sub w = some t) (hwu : w <:+ u)
    (hu : tree.sub u = some n) (hn : n ≠ .null) :
    (initSubtree kind w p (side w) t m).seq u = side u ∧
      ∀ i a, n = .leaf i a → (initSubtree kind w p (side w) t m).paths i = kind.pathTo u := by
  induction t generalizing w p m with
  | null =>
    rcases suffix_cases hwu with rfl | ⟨b,hb⟩
    · exact absurd (Option.some.inj (hu.symm.trans hw)) hn
    · obtain ⟨_,_,_,hnode⟩ := node_above hb hu
      cases hw.symm.trans hnode
  | leaf j c =>
    rcases suffix_cases hwu with rfl | ⟨b,hb⟩
    · obtain rfl := Option.some.inj (hu.symm.trans hw)
      refine ⟨update_self ..,fun i a h => ?_⟩
      cases h
      simp only [initSubtree,hp]
      cases kind <;> simp [Kind.pathTo]
    · obtain ⟨_,_,_,hnode⟩ := node_above hb hu
      cases hw.symm.trans hnode
  | node c l r ihl ihr =>
    rcases suffix_cases hwu with rfl | ⟨b,hb⟩
    · obtain rfl := Option.some.inj (hu.symm.trans hw)
      refine ⟨?_,fun i a h => (by cases h)⟩
      rw [initSubtree,init_subtree_seq_frame (not_suffix_self true u),
        init_subtree_seq_frame (not_suffix_self false u)]
      exact update_self ..
    · rw [Tree.entries,List.map_append,List.nodup_append'] at hd
      have hp' : p ++ [w] = (Marked.path (b :: w)).reverse := by
        rw [hp,Marked.path,List.reverse_cons]
      have hsub : tree.sub (b :: w) = some (if b then r else l) := by simp [Tree.sub,hw]
      cases b with
      | true => exact ihr hp' hd.2.1 hsub hb
      | false =>
        have hl := ihl (m := m.visit kind w (side w)) hp' hd.1 hsub hb
        rw [initSubtree,init_subtree_seq_frame (not_suffix_right hb)]
        refine ⟨hl.1,fun i a h => ?_⟩
        have hi : i ∉ r.entries.map Prod.fst := by
          obtain ⟨x,rfl⟩ := hb
          rw [sub_append,hsub,h] at hu
          exact fun hr => hd.2.2 (leaf_entry (t := l) hu) hr
        rw [init_subtree_paths_frame hi]
        exact hl.2 i a h

theorem construct_eq (h : 0 < actual) (hint : threadCnt actual < 2 ^ 31) :
    construct kind actual = some (build actual,initSubtree kind [] [] (-1) (build actual)
      ⟨fun _ => -1,fun w => ((build actual).sub w).elim nullEpoch Tree.val,fun _ => []⟩) := by
  have hcnt := two_le_thread_cnt h
  have heven := thread_cnt_even actual
  obtain ⟨-,-,-,hle,hhalf,-⟩ := full_layers hcnt heven
  obtain ⟨parents,-,hslots,hsize,-⟩ := last_layer hcnt heven
  rw [← hslots] at hsize
  simp only [construct]
  rw [if_neg (by omega),if_neg (by omega),if_neg (by omega)]
  rfl

theorem build_well_formed (h : 0 < actual) (m : Fields) :
    WellFormed kind (threadCnt actual) (build actual)
      (initSubtree kind [] [] (-1) (build actual) m) := by
  obtain ⟨hdistinct,hleaves⟩ := build_distinct h
  have hpaired := (build_shape h).1
  have hfull : ∀ u n, (build actual).sub u = some n → n ≠ .null := by
    intro u n hu
    rcases paired_sub hpaired hu with hp | ⟨i,a,rfl⟩
    · exact Concurrent.Paired.ne_null hp
    · simp
  obtain ⟨parents,d,-,htips,-,hdepth⟩ := build_tips h
  have hleaf : ∀ u i a, (build actual).sub u = some (.leaf i a) →
      u.length = d ∨ u.length = d + 1 := by
    intro u i a hu
    have htip := sub_tips hu ([],some (i,a)) (by simp [Tree.tips])
    rw [htips] at htip
    obtain ⟨⟨s,k⟩,hs,heq⟩ := List.mem_map.mp htip
    have hslot : s = u.reverse := by simpa using congrArg Prod.fst heq
    rw [← List.length_reverse,← hslot]
    exact hdepth s (List.fst_mem_of_mem_zipIdx hs)
  refine ⟨hpaired,hleaves,fun u w i j a b hu hw => ?_,fun b w n hn => ?_,fun w i a hn => ?_⟩
  · have := hleaf u i a hu
    have := hleaf w j b hw
    omega
  · exact (init_subtree_spec rfl hdistinct rfl List.nil_suffix hn (hfull _ n hn)).1
  · exact (init_subtree_spec rfl hdistinct rfl List.nil_suffix hn (hfull _ _ hn)).2 i a rfl

/-- The trees are well formed for every number of threads that can be rounded up to an even
`int`. -/
theorem construct_well_formed_iff (kind : Kind) (actual : Nat) (h : 1 ≤ actual)
    (hint : actual < 2 ^ 31) :
    (∃ t m, construct kind actual = some (t,m) ∧ WellFormed kind (threadCnt actual) t m) ↔
      actual ≠ 2 ^ 31 - 1 := by
  have hcnt : threadCnt actual < 2 ^ 31 ↔ actual ≠ 2 ^ 31 - 1 := by
    unfold threadCnt
    split <;> omega
  refine ⟨?_,fun hne => ⟨_,_,construct_eq h (hcnt.mpr hne),build_well_formed h _⟩⟩
  rintro ⟨t,m,hsome,-⟩
  refine hcnt.mp (lt_of_not_ge fun hge => ?_)
  rw [construct,if_pos (.inr hge)] at hsome
  cases hsome

theorem construct_well_formed_five : 1 ≤ 5 ∧ 5 < 2 ^ 31 ∧
    ∃ t m, construct .mindicator 5 = some (t,m) ∧ WellFormed .mindicator (threadCnt 5) t m :=
  ⟨by decide,by decide,(construct_well_formed_iff .mindicator 5 (by decide) (by decide)).mpr (by decide)⟩

end Montage.Mindicator
