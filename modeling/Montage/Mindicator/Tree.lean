import Montage.Basic
import Mathlib.Data.List.Range

namespace Montage.Mindicator
open List

/-- The tracker's tree: a child pointer is `nullptr`, a leaf with its index, or an internal
node. -/
inductive Tree where
  | null
  | leaf (idx val : Nat)
  | node (val : Nat) (l r : Tree)
  deriving DecidableEq

abbrev Slot := List Bool

def Tree.link : Tree → Slot → Tree → Tree
  | _, [], new => new
  | .node v l r, false :: p, new => .node v (l.link p new) r
  | .node v l r, true :: p, new => .node v l (r.link p new)
  | t, _ :: _, _ => t

def newNode : Tree := .node nullEpoch .null .null

def children (s : Slot) : List Slot := [s ++ [false],s ++ [true]]

/-- The tree under construction, with the `buffer` of slots to fill and, for the last
layer, the `tail` that is appended to it. -/
structure Builder where
  tree : Tree
  buffer : List Slot
  tail : List Slot

def addFront (b : Builder) : Builder :=
  match b.buffer with
  | [] => b
  | s :: rest => { b with tree := b.tree.link s newNode, buffer := rest ++ children s }

def addLayer (b : Builder) : Builder := addFront^[b.buffer.length] b

/-- `while (buffer.size() < thread_cnt>>1)`. Every round doubles the buffer. -/
def addLayers (half : Nat) : Nat → Builder → Builder
  | 0, b => b
  | fuel + 1, b => if b.buffer.length < half then addLayers half fuel (addLayer b) else b

def addBack (b : Builder) : Builder :=
  match b.buffer.getLast? with
  | none => b
  | some s =>
    ⟨b.tree.link s newNode,b.buffer.dropLast,children s ++ b.tail⟩

def threadCnt (actual : Nat) : Nat := if actual % 2 = 1 then actual + 1 else actual

/-- The leaf added to make their number even never lags behind. -/
def initVal (actual i : Nat) : Nat :=
  if actual % 2 = 1 ∧ i = threadCnt actual - 1 then uint64Max else nullEpoch

def linkLeaves (actual : Nat) (t : Tree) (buffer : List Slot) : Tree :=
  buffer.zipIdx.foldl (fun t s => t.link s.1 (.leaf s.2 (initVal actual s.2))) t

/-- The constructor of `IncreasingMindicator`. -/
def build (actual : Nat) : Tree :=
  let cnt := threadCnt actual
  let full := addLayers (cnt / 2) cnt ⟨newNode,[[false],[true]],[]⟩
  let last := addBack^[cnt - full.buffer.length] full
  linkLeaves actual last.tree ((last.buffer ++ last.tail).take cnt)

/-- What the slots of a tree hold, from left to right: `none` for `nullptr`, or a leaf. -/
def Tree.tips : Tree → List (Slot × Option (Nat × Nat))
  | .null => [([],none)]
  | .leaf i v => [([],some (i,v))]
  | .node _ l r =>
    l.tips.map (fun p => (false :: p.1,p.2)) ++ r.tips.map (fun p => (true :: p.1,p.2))

def Tree.entries : Tree → List (Nat × Nat)
  | .null => []
  | .leaf i v => [(i,v)]
  | .node _ l r => l.entries ++ r.entries

def Tree.Clean : Tree → Prop
  | .null | .leaf _ _ => True
  | .node v l r => v = nullEpoch ∧ l.Clean ∧ r.Clean

theorem link_clean (hn : new.Clean) (s : Slot) (t : Tree) (ht : t.Clean) :
    (t.link s new).Clean := by
  induction s generalizing t with
  | nil => simpa [Tree.link] using hn
  | cons b s ih =>
    cases t with
    | null | leaf => cases b <;> exact trivial
    | node v l r =>
      obtain ⟨hv,hl,hr⟩ := ht
      cases b with
      | false => exact ⟨hv,ih l hl,hr⟩
      | true => exact ⟨hv,hl,ih r hr⟩

theorem nil_tip (t : Tree) (h : t.tips = A ++ ([],none) :: B) :
    t = .null ∧ A = [] ∧ B = [] := by
  cases t with
  | null => simpa [Tree.tips,singleton_eq_append_iff] using h
  | leaf => simp [Tree.tips,singleton_eq_append_iff] at h
  | node v l r =>
    have hmem : ([],none) ∈ (Tree.node v l r).tips := by rw [h]; simp
    simp [Tree.tips] at hmem

theorem split_left {L R A B : List α} {x : α} (h : L ++ R = A ++ x :: B) (hx : x ∉ R) :
    ∃ C, L = A ++ x :: C ∧ B = C ++ R := by
  rcases append_eq_append_iff.mp h with ⟨C,-,hC⟩ | ⟨C,hL,hB⟩
  · exact absurd (by rw [hC]; simp) hx
  · cases C with
    | nil => exact absurd (by rw [nil_append] at hB; rw [← hB]; simp) hx
    | cons y C =>
      obtain ⟨rfl,hBC⟩ := cons.inj hB
      exact ⟨C,hL,hBC⟩

theorem split_right {L R A B : List α} {x : α} (h : L ++ R = A ++ x :: B) (hx : x ∉ L) :
    ∃ C, A = L ++ C ∧ R = C ++ x :: B := by
  rcases append_eq_append_iff.mp h with ⟨C,hA,hC⟩ | ⟨C,hL,hB⟩
  · exact ⟨C,hA,hC⟩
  · cases C with
    | nil => exact ⟨[],by simpa using hL.symm,by simpa using hB.symm⟩
    | cons =>
      obtain ⟨rfl,-⟩ := cons.inj hB
      exact absurd (by rw [hL]; simp) hx

theorem child_tip {b : Bool} {t : Tree} {s : Slot} {A B : List (Slot × Option (Nat × Nat))}
    (h : t.tips.map (fun p => (b :: p.1,p.2)) = A ++ (b :: s,none) :: B) :
    ∃ A' B', t.tips = A' ++ (s,none) :: B' ∧ A = A'.map (fun p => (b :: p.1,p.2)) ∧
      B = B'.map (fun p => (b :: p.1,p.2)) := by
  obtain ⟨A',C,ht,rfl,hC⟩ := map_eq_append_iff.mp h
  obtain ⟨⟨y1,y2⟩,B',rfl,hy,rfl⟩ := map_eq_cons_iff.mp hC
  simp only [Prod.mk.injEq,cons.injEq,true_and] at hy
  obtain ⟨rfl,rfl⟩ := hy
  exact ⟨A',B',ht,rfl,rfl⟩

theorem link_tips (new : Tree) (s : Slot) (t : Tree) (A B : List (Slot × Option (Nat × Nat)))
    (h : t.tips = A ++ (s,none) :: B) :
    (t.link s new).tips = A ++ new.tips.map (fun p => (s ++ p.1,p.2)) ++ B := by
  induction s generalizing t A B with
  | nil =>
    obtain ⟨rfl,rfl,rfl⟩ := nil_tip t h
    simp [Tree.link]
  | cons b s ih =>
    cases t with
    | null =>
      have hmem : (b :: s,none) ∈ Tree.null.tips := by rw [h]; simp
      simp [Tree.tips] at hmem
    | leaf i v =>
      have hmem : (b :: s,none) ∈ (Tree.leaf i v).tips := by rw [h]; simp
      simp [Tree.tips] at hmem
    | node v l r =>
      rw [Tree.tips] at h
      cases b with
      | false =>
        obtain ⟨C,hl,rfl⟩ := split_left h (by simp)
        obtain ⟨A',B',htips,rfl,rfl⟩ := child_tip hl
        simp [Tree.link,Tree.tips,ih l A' B' htips,Function.comp_def]
      | true =>
        obtain ⟨C,rfl,hr⟩ := split_right h (by simp)
        obtain ⟨A',B',htips,rfl,rfl⟩ := child_tip hr
        simp [Tree.link,Tree.tips,ih r A' B' htips,Function.comp_def]

def Open (t : Tree) (slots : List Slot) : Prop := t.tips = slots.map fun s => (s,none)

theorem open_link (h : Open t (A ++ s :: B)) :
    Open (t.link s newNode) (A ++ children s ++ B) := by
  have htips := link_tips newNode s t (A.map fun s => (s,none)) (B.map fun s => (s,none))
    (by simpa [Open] using h)
  simpa [Open,newNode,Tree.tips,children] using htips

theorem add_front_iterate (rest done : List Slot) (b : Builder)
    (hopen : Open b.tree (done ++ rest)) (hclean : b.tree.Clean)
    (hbuffer : b.buffer = rest ++ done) :
    Open (addFront^[rest.length] b).tree (done ++ rest.flatMap children) ∧
      (addFront^[rest.length] b).tree.Clean ∧
      (addFront^[rest.length] b).buffer = done ++ rest.flatMap children ∧
      (addFront^[rest.length] b).tail = b.tail := by
  induction rest generalizing done b with
  | nil => exact ⟨by simpa using hopen,hclean,by simpa using hbuffer,rfl⟩
  | cons s rest ih =>
    have hfront : addFront b =
        ⟨b.tree.link s newNode,rest ++ (done ++ children s),b.tail⟩ := by
      simp [addFront,hbuffer]
    have hnext := ih (done ++ children s) (addFront b)
    rw [hfront] at hnext
    rw [length_cons,Function.iterate_succ_apply,hfront]
    simpa using hnext (by simpa using open_link hopen)
      (link_clean (by simp [newNode,Tree.Clean]) s _ hclean) rfl

/-- The invariant of the loop that adds whole layers: the buffer has the open slots from
left to right, and they come in pairs of siblings. -/
structure Layered (b : Builder) (parents : List Slot) : Prop where
  slots : Open b.tree b.buffer
  clean : b.tree.Clean
  paired : b.buffer = parents.flatMap children
  tail : b.tail = []

theorem children_length (parents : List Slot) :
    (parents.flatMap children).length = 2 * parents.length := by
  induction parents with
  | nil => rfl
  | cons _ _ ih => simp [children,ih]; omega

theorem add_layer_layered (h : Layered b parents) : Layered (addLayer b) b.buffer := by
  obtain ⟨hopen,hclean,hbuffer,htail⟩ :=
    add_front_iterate b.buffer [] b h.slots h.clean (by simp)
  exact ⟨by simpa [addLayer,hbuffer] using hopen,hclean,by simpa [addLayer] using hbuffer,
    htail.trans h.tail⟩

theorem mem_children : t ∈ children s ↔ ∃ b, t = s ++ [b] := by
  simp [children]

theorem add_layers_layered (half fuel : Nat) (b : Builder) (h : Layered b parents)
    (hsize : b.buffer.length ≤ 2 * half) (hpos : 0 < b.buffer.length)
    (hdepth : ∀ s ∈ b.buffer, s.length = d) :
    ∃ parents' d', Layered (addLayers half fuel b) parents' ∧
      (addLayers half fuel b).buffer.length ≤ 2 * half ∧
      (half ≤ b.buffer.length + fuel → half ≤ (addLayers half fuel b).buffer.length) ∧
      ∀ s ∈ (addLayers half fuel b).buffer, s.length = d' := by
  induction fuel generalizing b parents d with
  | zero => exact ⟨parents,d,h,hsize,fun hf => hf,hdepth⟩
  | succ _ ih =>
    unfold addLayers
    split
    next =>
      have hlayer := add_layer_layered h
      have hlength : (addLayer b).buffer.length = 2 * b.buffer.length := by
        rw [hlayer.paired,children_length]
      have hdeeper : ∀ s ∈ (addLayer b).buffer, s.length = d + 1 := by
        intro s hs
        rw [hlayer.paired] at hs
        obtain ⟨s',hs',hchild⟩ := mem_flatMap.mp hs
        obtain ⟨c,rfl⟩ := mem_children.mp hchild
        rw [length_append,hdepth s' hs',length_singleton]
      obtain ⟨parents',d',hl,hle,hfuel,hd⟩ :=
        ih (addLayer b) hlayer (by omega) (by omega) hdeeper
      exact ⟨parents',d',hl,hle,fun hf => hfuel (by omega),hd⟩
    next => exact ⟨parents,d,h,hsize,fun _ => by omega,hdepth⟩

/-- The last layer is filled from the back, and the tail collects the new slots. -/
theorem add_back_iterate (k : Nat) (b : Builder) (hopen : Open b.tree (b.buffer ++ b.tail))
    (hclean : b.tree.Clean) (hk : k ≤ b.buffer.length) :
    Open (addBack^[k] b).tree ((addBack^[k] b).buffer ++ (addBack^[k] b).tail) ∧
      (addBack^[k] b).tree.Clean ∧
      (addBack^[k] b).buffer = b.buffer.take (b.buffer.length - k) ∧
      (addBack^[k] b).tail = (b.buffer.drop (b.buffer.length - k)).flatMap children ++ b.tail := by
  induction k generalizing b with
  | zero => exact ⟨hopen,hclean,by simp,by simp⟩
  | succ k ih =>
    rcases eq_nil_or_concat b.buffer with hnil | ⟨front,s,hconcat⟩
    · simp [hnil] at hk
    · rw [concat_eq_append] at hconcat
      have hback : addBack b = ⟨b.tree.link s newNode,front,children s ++ b.tail⟩ := by
        simp [addBack,hconcat]
      rw [hconcat,append_assoc,singleton_append] at hopen
      have hlength : b.buffer.length = front.length + 1 := by simp [hconcat]
      have hnext := ih ⟨b.tree.link s newNode,front,children s ++ b.tail⟩
        (by simpa using open_link hopen) (link_clean (by simp [newNode,Tree.Clean]) s _ hclean)
        (by simp only; omega)
      rw [Function.iterate_succ_apply,hback]
      obtain ⟨hopen',hclean',hbuffer,htail⟩ := hnext
      refine ⟨hopen',hclean',?_,?_⟩
      · rw [hbuffer,hlength,hconcat,Nat.add_sub_add_right,
          take_append_of_le_length (by simp)]
      · rw [htail,hlength,hconcat,Nat.add_sub_add_right,
          drop_append_of_le_length (by simp)]
        simp

theorem link_leaves_tips (actual k : Nat) (slots : List Slot) (t : Tree)
    (linked : List (Slot × Option (Nat × Nat)))
    (h : t.tips = linked ++ slots.map fun s => (s,none)) (hclean : t.Clean) :
    ((slots.zipIdx k).foldl (fun t s => t.link s.1 (.leaf s.2 (initVal actual s.2))) t).tips =
      linked ++ (slots.zipIdx k).map (fun s => (s.1,some (s.2,initVal actual s.2))) ∧
    ((slots.zipIdx k).foldl (fun t s => t.link s.1 (.leaf s.2 (initVal actual s.2))) t).Clean := by
  induction slots generalizing k t linked with
  | nil => exact ⟨by simpa using h,hclean⟩
  | cons s _ ih =>
    have htips := link_tips (.leaf k (initVal actual k)) s t linked _ (by simpa using h)
    have hleaf : (Tree.leaf k (initVal actual k)).Clean := trivial
    have hnext := ih (k + 1) (t.link s (.leaf k (initVal actual k)))
      (linked ++ [(s,some (k,initVal actual k))]) (by simpa [Tree.tips] using htips)
      (link_clean hleaf s t hclean)
    simpa [zipIdx_cons] using hnext

theorem take_children (m : Nat) (parents : List Slot) :
    (parents.flatMap children).take (2 * m) = (parents.take m).flatMap children := by
  induction parents generalizing m with
  | nil => simp
  | cons _ _ ih =>
    cases m with
    | zero => simp
    | succ =>
      rw [Nat.mul_succ]
      simp [children,ih]

theorem thread_cnt_even (actual : Nat) : 2 * (threadCnt actual / 2) = threadCnt actual := by
  unfold threadCnt
  split <;> omega

def fullLayers (cnt : Nat) : Builder := addLayers (cnt / 2) cnt ⟨newNode,[[false],[true]],[]⟩

def lastLayer (cnt : Nat) : Builder :=
  addBack^[cnt - (fullLayers cnt).buffer.length] (fullLayers cnt)

theorem full_layers {cnt : Nat} (hcnt : 2 ≤ cnt) (heven : 2 * (cnt / 2) = cnt) :
    ∃ parents d, Layered (fullLayers cnt) parents ∧ (fullLayers cnt).buffer.length ≤ cnt ∧
      cnt / 2 ≤ (fullLayers cnt).buffer.length ∧ ∀ s ∈ (fullLayers cnt).buffer, s.length = d := by
  have hstart : Layered ⟨newNode,[[false],[true]],[]⟩ [[]] :=
    ⟨rfl,by simp [newNode,Tree.Clean],rfl,rfl⟩
  obtain ⟨parents,d,hfull,hle,hfuel,hdepth⟩ := add_layers_layered (d := 1) (cnt / 2) cnt
    ⟨newNode,[[false],[true]],[]⟩ hstart (by simp only [length_cons,length_nil]; omega)
    (by simp) (by simp)
  exact ⟨parents,d,hfull,le_trans hle (le_of_eq heven),hfuel (by omega),hdepth⟩

/-- The open slots come in pairs of siblings, on one level or on two. -/
theorem last_layer {cnt : Nat} (hcnt : 2 ≤ cnt) (heven : 2 * (cnt / 2) = cnt) :
    ∃ (parents : List Slot) (d : Nat),
      (lastLayer cnt).buffer ++ (lastLayer cnt).tail = parents.flatMap children ∧
      (parents.flatMap children).length = cnt ∧
      Open (lastLayer cnt).tree (parents.flatMap children) ∧ (lastLayer cnt).tree.Clean ∧
      ∀ s ∈ parents.flatMap children, s.length = d ∨ s.length = d + 1 := by
  obtain ⟨parents,d,hfull,hle,hhalf,hdepth⟩ := full_layers hcnt heven
  unfold lastLayer
  generalize fullLayers cnt = b at hfull hle hhalf hdepth
  obtain ⟨k,hk⟩ : ∃ k, k = cnt - b.buffer.length := ⟨_,rfl⟩
  obtain ⟨m,hm⟩ : ∃ m, m = b.buffer.length - cnt / 2 := ⟨_,rfl⟩
  obtain ⟨hopen,hclean,hbuffer,htail⟩ := add_back_iterate k b
    (by simpa [hfull.tail] using hfull.slots) hfull.clean (by omega)
  -- an even number of slots is left in front of the last layer
  have hfront : b.buffer.length - k = 2 * m := by omega
  have htake : b.buffer.take (2 * m) = (parents.take m).flatMap children := by
    rw [hfull.paired,take_children]
  rw [hfront] at hbuffer
  rw [hfront,hfull.tail,append_nil] at htail
  have hslots : (addBack^[k] b).buffer ++ (addBack^[k] b).tail =
      (parents.take m ++ b.buffer.drop (2 * m)).flatMap children := by
    rw [hbuffer,htake,htail,flatMap_append]
  rw [← hk]
  refine ⟨_,d,hslots,?_,hslots ▸ hopen,hclean,?_⟩
  · rw [← hslots,hbuffer,htail,length_append,children_length,length_take,
      length_drop]
    omega
  · intro s hs
    rw [← hslots,hbuffer,htail] at hs
    rcases mem_append.mp hs with hs | hs
    · exact .inl (hdepth s (mem_of_mem_take hs))
    · obtain ⟨s',hs',hchild⟩ := mem_flatMap.mp hs
      obtain ⟨c,rfl⟩ := mem_children.mp hchild
      rw [length_append,hdepth s' (mem_of_mem_drop hs')]
      exact .inr rfl

theorem two_le_thread_cnt (h : 0 < actual) : 2 ≤ threadCnt actual := by
  unfold threadCnt
  split <;> omega

/-- The finished tree: its slots come in pairs of siblings and hold the leaves in order. -/
theorem build_tips (h : 0 < actual) :
    ∃ (parents : List Slot) (d : Nat), (parents.flatMap children).length = threadCnt actual ∧
      (build actual).tips = (parents.flatMap children).zipIdx.map
        (fun s => (s.1,some (s.2,initVal actual s.2))) ∧
      (build actual).Clean ∧ ∀ s ∈ parents.flatMap children, s.length = d ∨ s.length = d + 1 := by
  obtain ⟨parents,d,hslots,hsize,hopen,hclean,hdepth⟩ :=
    last_layer (two_le_thread_cnt h) (thread_cnt_even actual)
  have hbuild : build actual =
      linkLeaves actual (lastLayer (threadCnt actual)).tree (parents.flatMap children) := by
    change linkLeaves actual _ (List.take _ (_ ++ _)) = _
    rw [← take_of_length_le (le_of_eq hsize),← hslots]
    rfl
  have hlink := link_leaves_tips actual 0 _ _ [] hopen hclean
  rw [hbuild]
  exact ⟨parents,d,hsize,hlink.1,hlink.2,hdepth⟩

/-- Every internal node has two leaves or two internal nodes for children. -/
inductive Paired : Tree → Prop
  | pair : Paired (.node v (.leaf i a) (.leaf j b))
  | node : Paired l → Paired r → Paired (.node v l r)

theorem paired_of_tips (t : Tree) (hnode : ∃ v l r, t = .node v l r)
    (hfull : ∀ p ∈ t.tips, p.2 ≠ none)
    (hsib : ∀ s, (∃ x, (s ++ [false],x) ∈ t.tips) ↔ ∃ x, (s ++ [true],x) ∈ t.tips) :
    Paired t := by
  induction t with
  | null | leaf i v => obtain ⟨v,l,r,h⟩ := hnode; cases h
  | node v l r ihl ihr =>
    have hroot := hsib []
    have hl : ∀ s, (∃ x, (s ++ [false],x) ∈ l.tips) ↔ ∃ x, (s ++ [true],x) ∈ l.tips := by
      intro s
      simpa [Tree.tips] using hsib (false :: s)
    have hr : ∀ s, (∃ x, (s ++ [false],x) ∈ r.tips) ↔ ∃ x, (s ++ [true],x) ∈ r.tips := by
      intro s
      simpa [Tree.tips] using hsib (true :: s)
    have hfl : ∀ p ∈ l.tips, p.2 ≠ none := fun p hp =>
      hfull (false :: p.1,p.2) (by simp [Tree.tips,hp])
    have hfr : ∀ p ∈ r.tips, p.2 ≠ none := fun p hp =>
      hfull (true :: p.1,p.2) (by simp [Tree.tips,hp])
    cases l with
    | null => exact absurd rfl (hfl ([],none) (by simp [Tree.tips]))
    | leaf =>
      cases r with
      | null => exact absurd rfl (hfr ([],none) (by simp [Tree.tips]))
      | leaf => exact .pair
      | node => simp [Tree.tips] at hroot
    | node =>
      cases r with
      | null => exact absurd rfl (hfr ([],none) (by simp [Tree.tips]))
      | leaf => simp [Tree.tips] at hroot
      | node => exact .node (ihl ⟨_,_,_,rfl⟩ hfl hl) (ihr ⟨_,_,_,rfl⟩ hfr hr)

theorem entries_eq_tips (t : Tree) : t.entries = t.tips.filterMap Prod.snd := by
  induction t with
  | null => rfl
  | leaf => rfl
  | node v l r ihl ihr => simp [Tree.entries,Tree.tips,ihl,ihr,filterMap_map]

theorem build_shape (h : 0 < actual) :
    Paired (build actual) ∧ (build actual).Clean ∧
      (build actual).entries = (List.range (threadCnt actual)).map fun i => (i,initVal actual i) := by
  obtain ⟨parents,d,hsize,htips,hclean,-⟩ := build_tips h
  have hfull : ∀ p ∈ (build actual).tips, p.2 ≠ none := by
    intro p hp
    rw [htips] at hp
    obtain ⟨q,-,rfl⟩ := mem_map.mp hp
    simp
  have hslot : ∀ s, (∃ x, (s,x) ∈ (build actual).tips) ↔ s ∈ parents.flatMap children := by
    intro s
    have hfst : (build actual).tips.map Prod.fst = parents.flatMap children := by
      rw [htips,map_map]
      exact zipIdx_map_fst 0 _
    rw [← hfst]
    simp
  have hsib : ∀ s b, s ++ [b] ∈ parents.flatMap children ↔ s ∈ parents := by
    intro s b
    cases b <;> simp [children,append_cancel_right_eq]
  refine ⟨paired_of_tips _ ?_ hfull ?_,hclean,?_⟩
  · cases hb : build actual with
    | null => exact absurd rfl (hfull ([],none) (by simp [hb,Tree.tips]))
    | leaf i v =>
      have hnil := (hslot []).mp ⟨some (i,v),by simp [hb,Tree.tips]⟩
      simp [children] at hnil
    | node v l r => exact ⟨v,l,r,rfl⟩
  · intro s
    rw [hslot,hslot,hsib,hsib]
  · rw [entries_eq_tips,htips,filterMap_map]
    have hsnd := zipIdx_map_snd 0 (parents.flatMap children)
    rw [hsize,← range_eq_range'] at hsnd
    rw [← hsnd,map_map]
    exact congrFun (filterMap_eq_map' (f := fun s : Slot × Nat => (s.2,initVal actual s.2))) _

end Montage.Mindicator
