import Montage.NatarajanTree.Writes

namespace Montage.NatarajanTree
open Library Library.Maps

variable {K V : Type} [LinearOrder K]

/-- A search for a key that has come to `n` is on the search path at every inner node that it
finds in the tree, and comes to the leaf `flagged` by a flagged pointer only. -/
def Guided (s : State K V) (key : K) (flagged : Option Nat) (n : Nat) : Prop :=
  Guides s.next (s.turns key) nodeR n ∧
    ∀ m f, Path s.next (s.turns key) n m → flagged = some f →
      s.next m (s.side key m) = some f → (s.edge m (s.side key m)).flg = true

/-- The leaf that a `remove` has flagged stays flagged for as long as it is in the tree. -/
def Injected (L : Set Nat) (s : State K V) (flagged : Option Nat) : Prop :=
  ∀ f, flagged = some f → f ∈ L ∧ IsLeaf s f ∧
    ∀ m c, Linked s m → s.next m c = some f → (s.edge m c).flg = true

structure Grows (L : Set Nat) (s : State K V) (L' : Set Nat) (s' : State K V) : Prop where
  sub : L ⊆ L'
  made : s.made ≤ s'.made
  node : ∀ n ∈ L, s'.node n = s.node n
  ends : ∀ n ∈ L, (∀ c, s.next n c = none) → ∀ c, s'.next n c = none
  flg : ∀ n ∈ L, ∀ c, (s.edge n c).flg = true →
    (s'.edge n c).flg = true ∧ s'.next n c = s.next n c
  tg : ∀ n ∈ L, ∀ c, (s.edge n c).tg = true → s'.edge n c = s.edge n c
  injected : ∀ flagged, Injected L s flagged → Injected L' s' flagged
  guided : ∀ key flagged n, n ∈ L → Injected L s flagged → Guided s key flagged n →
    Guided s' key flagged n

variable {L L' : Set Nat} {s s' : State K V} {a f i l n m p x y t : Nat} {c d e : Side} {w : Edge}
  {key : K} {flagged : Option Nat} {op : Call K V} {new : Option (Nat × Nat)}

theorem On.guided (hon : On s key n) (hi : Injected L s flagged) : Guided s key flagged n := by
  refine ⟨hon.guides,?_⟩
  intro m f hm hf hnext
  exact (hi f hf).2.2 m _ (hon.trans hm).reach hnext

theorem Guided.next (hg : Guided s key flagged n) (hm : s.next n (s.side key n) = some m) :
    Guided s key flagged m ∧ (flagged = some m → (s.edge n (s.side key n)).flg = true) := by
  have hturn : s.turns key n (s.side key n) := rfl
  refine ⟨⟨hg.1.next hturn hm,?_⟩,fun hf => hg.2 n m (.refl n) hf hm⟩
  intro x f hx
  exact hg.2 x f (((Library.Path.refl n).snoc hturn hm).trans hx)

theorem Core.frame (h : Core L s) (s' : State K V) (hnode : ∀ n ∈ L, s'.node n = s.node n)
    (hedge : ∀ n ∈ L, s'.edge n = s.edge n) (hmade : s.made ≤ s'.made)
    (hcommitted : s'.committed = s.committed) (hretired : s'.retired = s.retired) :
    Core L s' ∧ Grows L s L s' := by
  have hnext : ∀ n ∈ L, ∀ c, s'.next n c = s.next n c := by
    intro n hn c
    rw [State.next,State.next,hedge n hn]
  have hclosed' : ∀ n ∈ L, ∀ c m, s'.next n c = some m → m ∈ L := by
    intro n hn c m hm
    rw [hnext n hn] at hm
    exact h.closed n hn c m hm
  have hpath : ∀ {ok : Nat → Side → Prop} {a b}, a ∈ L → Path s.next ok a b → Path s'.next ok a b :=
    fun ha hp => hp.congr ha h.closed fun a ha d hd => ⟨hd,hnext a ha d⟩
  have hpath' : ∀ {ok : Nat → Side → Prop} {a b}, a ∈ L → Path s'.next ok a b → Path s.next ok a b :=
    fun ha hp => hp.congr ha hclosed' fun a ha d hd => ⟨hd,(hnext a ha d).symm⟩
  have hturns : ∀ key n c, n ∈ L → (s'.turns key n c ↔ s.turns key n c) := by
    intro key n c hn
    rw [State.turns,State.turns,side_congr (hnode n hn)]
  have hon : ∀ key a b, a ∈ L → (Path s.next (s.turns key) a b ↔ Path s'.next (s'.turns key) a b) := by
    intro key a b ha
    constructor
    · exact fun hp => hp.congr ha h.closed fun a ha d hd => ⟨(hturns key a d ha).mpr hd,hnext a ha d⟩
    · exact fun hp => hp.congr ha hclosed' fun a ha d hd =>
        ⟨(hturns key a d ha).mp hd,(hnext a ha d).symm⟩
  have hlinked : ∀ n, Linked s' n ↔ Linked s n := fun n => ⟨hpath' h.root,hpath h.root⟩
  have hisleaf : ∀ n ∈ L, (IsLeaf s' n ↔ IsLeaf s n) := by
    intro n hn
    rw [IsLeaf,IsLeaf,hnode n hn]
    simp only [hnext n hn]
  have hleaves : ∀ n, Leaf s' n ↔ Leaf s n := by
    intro n
    rw [leaf_iff,leaf_iff,hlinked]
    exact and_congr_right fun hn => hisleaf n (h.linked_mem hn)
  have hs : nodeS ∈ L := h.linked_mem h.linked_s
  constructor
  · refine ⟨h.root,fun n hn => lt_of_lt_of_le (h.made n hn) hmade,hclosed',?_,?_,?_,?_,?_,?_,?_,
      ?_,?_,?_,?_,?_,?_⟩
    · intro n hn
      simp only [hedge n hn,hnext n hn]
      exact h.shape n hn
    · intro n m c d x hn hm hnx hmx
      rw [hlinked] at hn hm
      rw [hnext n (h.linked_mem hn)] at hnx
      rw [hnext m (h.linked_mem hm)] at hmx
      exact h.single n m c d x hn hm hnx hmx
    · intro n hn c m hm
      rw [hedge n hn] at hm
      exact (hlinked n).mpr (h.live n hn c m hm)
    · intro n hn c ht
      rw [hedge n hn] at ht ⊢
      exact h.tagged n hn c ht
    · intro n hn c hf
      rw [hedge n hn] at hf
      obtain ⟨m,hm,hleaf⟩ := h.flagged n hn c hf
      exact ⟨m,(hnext n hn c).trans hm,(hisleaf m (h.closed n hn c m hm)).mpr hleaf⟩
    · rw [hedge _ h.root]
      exact h.rootEdge
    · rw [hnode _ h.root,hnode _ hs]
      exact h.rootLevel
    · obtain ⟨m,hm,hlevel⟩ := h.first
      refine ⟨m,(hnext _ hs _).trans hm,?_⟩
      rw [hnode m (h.closed _ hs _ m hm)]
      exact hlevel
    · intro n hn hlevel m hm
      rw [hnode n hn] at hlevel
      rw [hnext n hn] at hm
      rw [hnode m (h.closed n hn _ m hm),hedge n hn]
      exact h.right n hn hlevel m hm
    · intro n hn
      rw [hleaves] at hn
      rw [hnode n (h.linked_mem hn.1)]
      exact (hon _ _ _ h.root).mp (h.ordered n hn)
    · intro n
      rw [hcommitted,hretired,hleaves]
      exact h.durable n
    · rw [hcommitted,hretired]
      exact h.logged
    · intro n hn hleaf
      rw [hnode n hn]
      exact h.payload n hn ((hisleaf n hn).mp hleaf)
  · refine ⟨Set.Subset.refl L,hmade,hnode,?_,?_,?_,?_,?_⟩
    · intro n hn hend c
      rw [hnext n hn]
      exact hend c
    · intro n hn c hf
      rw [hedge n hn]
      exact ⟨hf,hnext n hn c⟩
    · intro n hn c _
      rw [hedge n hn]
    · intro flagged hi f hf
      obtain ⟨hfL,hleaf,hflg⟩ := hi f hf
      refine ⟨hfL,(hisleaf f hfL).mpr hleaf,?_⟩
      intro m c hm hmf
      rw [hlinked] at hm
      have hmL := h.linked_mem hm
      rw [hnext m hmL] at hmf
      rw [hedge m hmL]
      exact hflg m c hm hmf
    · intro key flagged n hn _ hg
      have hpathL : ∀ m, Path s.next (s.turns key) n m → m ∈ L :=
        fun m hm => Path.mem hm hn fun a ha d b _ hb => h.closed a ha d b hb
      refine ⟨?_,?_⟩
      · intro m hm hlm hinner
        have hm0 := (hon key n m hn).mpr hm
        have hmL := hpathL m hm0
        obtain ⟨d,b,hd,hb⟩ := hinner
        rw [hnext m hmL] at hb
        exact (hon key _ m h.root).mp (hg.1 m hm0 ((hlinked m).mp hlm)
          ⟨d,b,(hturns key m d hmL).mp hd,hb⟩)
      · intro m f hm hf hmf
        have hm0 := (hon key n m hn).mpr hm
        have hmL := hpathL m hm0
        rw [hnext m hmL,side_congr (hnode m hmL)] at hmf
        rw [side_congr (hnode m hmL),hedge m hmL]
        exact hg.2 m f hm0 hf hmf

theorem Writes.mark_grows (hw : Writes s s' p c w) (hptr : w.ptr = s.next p c)
    (hflg : (s.edge p c).flg = true → w.flg = true) (htg : (s.edge p c).tg = false) :
    Grows L s L s' := by
  have hnext := hw.next_eq hptr
  have hmarks : ∀ n d, (s.edge n d).flg = true → (s'.edge n d).flg = true := by
    intro n d hf
    by_cases he : n = p ∧ d = c
    · obtain ⟨rfl,rfl⟩ := he
      rw [hw.self]
      exact hflg hf
    · rw [hw.other n d he]
      exact hf
  refine ⟨Set.Subset.refl L,hw.made.ge,fun n _ => congrFun hw.node n,?_,?_,?_,?_,?_⟩
  · intro n _ hend
    rw [hnext]
    exact hend
  · intro n _ d hf
    exact ⟨hmarks n d hf,by rw [hnext]⟩
  · intro n _ d ht
    refine hw.other n d ?_
    rintro ⟨rfl,rfl⟩
    rw [htg] at ht
    cases ht
  · intro flagged hi f hf
    obtain ⟨hfL,hleaf,hlinked⟩ := hi f hf
    rw [IsLeaf,hnext,hw.node]
    refine ⟨hfL,hleaf,?_⟩
    intro m d hm hmf
    rw [Linked,hnext] at hm
    exact hmarks m d (hlinked m d hm hmf)
  · intro key flagged n _ _ hg
    rw [Guided,hnext,hw.turns]
    refine ⟨hg.1,?_⟩
    intro m f hm hf hmf
    rw [side_congr (congrFun hw.node m)] at hmf ⊢
    exact hmarks m _ (hg.2 m f hm hf hmf)

theorem Core.redirect_grows (h : Core L s) (hw : Writes s s' p c w) (hp : p ∈ L)
    (hold : s.edge p c = .plain x) (hsub : L ⊆ L') (hlinked : Linked s' p)
    (hisleaf : IsLeaf s' = IsLeaf s)
    (hback : ∀ m ∈ L, Linked s' m → Linked s m)
    (hon : ∀ key m, On s key m → Linked s' m → Inner s'.next (s.turns key) m → On s' key m)
    (hto : ∀ f ∈ L, (∀ m d, Linked s m → s.next m d = some f → (s.edge m d).flg = true) →
      ∀ m d, Linked s' m → s'.next m d = some f → (s'.edge m d).flg = true) :
    Grows L s L' s' := by
  have hnext : s.next p c = some x := next_of_plain hold
  have hmarked : ∀ n d, (s.edge n d).flg = true ∨ (s.edge n d).tg = true →
      s'.edge n d = s.edge n d := by
    intro n d hm
    refine hw.other n d ?_
    rintro ⟨rfl,rfl⟩
    rw [hold] at hm
    rcases hm with hm | hm <;> cases hm
  have hinjected : ∀ flagged, Injected L s flagged → Injected L' s' flagged := by
    intro flagged hi f hf
    obtain ⟨hfL,hleaf,hlinked⟩ := hi f hf
    rw [hisleaf]
    exact ⟨hsub hfL,hleaf,hto f hfL hlinked⟩
  refine ⟨hsub,hw.made.ge,fun n _ => congrFun hw.node n,?_,?_,?_,hinjected,?_⟩
  · intro n hn hend d
    have hne : n ≠ p := by
      rintro rfl
      rw [hend c] at hnext
      cases hnext
    rw [hw.next_other n d fun he => hne he.1]
    exact hend d
  · intro n _ d hf
    rw [State.next,State.next,hmarked n d (.inl hf)]
    exact ⟨hf,rfl⟩
  · exact fun n _ d ht => hmarked n d (.inr ht)
  · intro key flagged n hn hi hg
    rw [Guided,hw.turns]
    refine ⟨hg.1.kept hw.next_other hlinked h.closed hn ?_ ?_,?_⟩
    · intro m hm hm' hinner
      refine ⟨hback m hm hm',?_⟩
      obtain ⟨d,b,hd,hb⟩ := hinner
      by_cases hmp : m = p
      · subst hmp
        obtain ⟨b',hb'⟩ := Option.ne_none_iff_exists'.mp (h.inner hm hnext d)
        exact ⟨d,b',hd,hb'⟩
      · rw [hw.next_other m d fun he => hmp he.1] at hb
        exact ⟨d,b,hd,hb⟩
    · intro m hm hm' hinner
      have hon' := hon key m hm hm' hinner
      rwa [On,hw.turns] at hon'
    · -- what is still in the tree is flagged there; the rest is as it was
      intro m f hm hf hmf
      rw [side_congr (congrFun hw.node m)] at hmf ⊢
      rcases Path.kept hw.next_other hlinked h.closed hn hm with hm' | ⟨hm0,hmL⟩
      · exact (hinjected flagged hi f hf).2.2 m _ hm' hmf
      · by_cases hmp : m = p
        · subst hmp
          exact (hinjected flagged hi f hf).2.2 m _ hlinked hmf
        · rw [hw.next_other m _ fun he => hmp he.1] at hmf
          rw [hw.other m _ fun he => hmp he.1]
          exact hg.2 m f hm0 hf hmf

/-- The path of tagged pointers from the successor to the parent. -/
def TagPath (s : State K V) : Nat → Nat → Prop :=
  Path s.next fun n c => (s.edge n c).tg = true

section
variable (L : Set Nat) (s : State K V) (key : K) (flagged : Option Nat)

structure Found (rec : SeekRecord) : Prop where
  ancestor : rec.ancestor ∈ L
  successor : rec.successor ∈ L
  parent : rec.parent ∈ L
  leaf : rec.leaf ∈ L
  guided : Guided s key flagged rec.parent
  path : TagPath s rec.successor rec.parent
  hunted : flagged = some rec.leaf → (s.edge rec.parent (s.side key rec.parent)).flg = true

structure Walk (rec : SeekRecord) (parentField currentField : Edge) : Prop
    extends Found L s key flagged rec where
  leafGuided : Guided s key flagged rec.leaf
  parentTag : parentField.tg = true → (s.edge rec.parent (s.side key rec.parent)).tg = true ∧
    s.next rec.parent (s.side key rec.parent) = some rec.leaf
  currentTag : currentField.tg = true → s.edge rec.leaf (s.side key rec.leaf) = currentField
  current : ∀ n, currentField.ptr = some n → n ∈ L ∧ Guided s key flagged n ∧
    (flagged = some n → (s.edge rec.leaf (s.side key rec.leaf)).flg = true)
  stop : currentField.ptr = none → ∀ c, s.next rec.leaf c = none

structure Sought (rec : SeekRecord) : Prop extends Found L s key flagged rec where
  stop : ∀ c, s.next rec.leaf c = none

/-- `cleanup` has found the flagged leaf, on the other side than `sibling`. -/
structure Cleaning (rec : SeekRecord) (tmpChild : Nat) (sibling : Side) :
    Prop extends Sought L s key flagged rec where
  flg : (s.edge rec.parent sibling.other).flg = true
  child : s.next rec.parent sibling.other = some tmpChild

structure Entered (leaf : Nat) : Prop where
  mem : leaf ∈ L
  level : (s.node leaf).level ≠ .finite
  guided : Guided s key flagged leaf

def At.Inv (new : Option (Nat × Nat)) (flagged : Option Nat) : At V → Prop
  | .seek | .returned _ => True
  | .first leaf => Entered L s key flagged leaf
  | .enter leaf parentField => Entered L s key flagged leaf ∧ parentField.tg = false
  | .walk rec parentField currentField => Walk L s key flagged rec parentField currentField
  | .sought rec | .help rec => Sought L s key flagged rec
  | .link rec => Sought L s key flagged rec ∧ ∃ i n, new = some (i,n) ∧ Ready s key i n rec.leaf
  | .replace rec => Sought L s key flagged rec ∧ s.nodeEqual key rec.leaf = true ∧ new ≠ none
  | .inject rec => Sought L s key flagged rec ∧ s.nodeEqual key rec.leaf = true
  | .child rec => Sought L s key flagged rec ∧
    ((s.edge rec.parent (s.side key rec.parent)).flg = true ∨
      (s.edge rec.parent (s.side key rec.parent)).tg = true)
  | .sibling rec => Sought L s key flagged rec ∧
    (s.edge rec.parent (s.side key rec.parent).other).flg = true
  | .untagged rec tmpChild side => Cleaning L s key flagged rec tmpChild side
  | .tag rec tmpChild side field => Cleaning L s key flagged rec tmpChild side ∧ field.tg = false
  | .tagged rec tmpChild side => Cleaning L s key flagged rec tmpChild side ∧
    (s.edge rec.parent side).tg = true
  | .splice rec tmpChild tmpSibling => ∃ side, Cleaning L s key flagged rec tmpChild side ∧
    s.edge rec.parent side = tmpSibling ∧ tmpSibling.tg = true
  | .failed => False

end

section Mono
variable {rec : SeekRecord} {here : At V} (hg : Grows L s L' s') (h : Core L s)
include hg

omit h in
theorem Grows.side (hn : n ∈ L) : s'.side key n = s.side key n := side_congr (hg.node n hn)

omit h in
theorem Grows.equal (hn : n ∈ L) : s'.nodeEqual key n = s.nodeEqual key n := by
  rw [State.nodeEqual,State.nodeEqual,hg.node n hn]

omit h in
theorem Grows.entered (hi : Injected L s flagged) (he : Entered L s key flagged n) :
    Entered L' s' key flagged n := by
  refine ⟨hg.sub he.mem,?_,hg.guided key flagged n he.mem hi he.guided⟩
  rw [hg.node n he.mem]
  exact he.level

include h

theorem Grows.found (hi : Injected L s flagged) (hf : Found L s key flagged rec) :
    Found L' s' key flagged rec where
  ancestor := hg.sub hf.ancestor
  successor := hg.sub hf.successor
  parent := hg.sub hf.parent
  leaf := hg.sub hf.leaf
  guided := hg.guided key flagged _ hf.parent hi hf.guided
  path := by
    refine Path.congr hf.path hf.successor h.closed fun a ha d ht => ?_
    have hsame := hg.tg a ha d ht
    rw [State.next,State.next,hsame]
    exact ⟨ht,rfl⟩
  hunted := by
    intro hl
    rw [hg.side hf.parent]
    exact (hg.flg _ hf.parent _ (hf.hunted hl)).1

theorem Grows.sought (hi : Injected L s flagged) (hs : Sought L s key flagged rec) :
    Sought L' s' key flagged rec :=
  ⟨hg.found h hi hs.toFound,hg.ends _ hs.leaf hs.stop⟩

theorem Grows.cleaning {sibling : Side} (hi : Injected L s flagged)
    (hc : Cleaning L s key flagged rec x sibling) : Cleaning L' s' key flagged rec x sibling := by
  obtain ⟨hflg,hnext⟩ := hg.flg _ hc.parent _ hc.flg
  exact ⟨hg.sought h hi hc.toSought,hflg,hnext.trans hc.child⟩

theorem Grows.walk {parentField currentField : Edge} (hi : Injected L s flagged)
    (hw : Walk L s key flagged rec parentField currentField) :
    Walk L' s' key flagged rec parentField currentField where
  toFound := hg.found h hi hw.toFound
  leafGuided := hg.guided key flagged _ hw.leaf hi hw.leafGuided
  parentTag := by
    intro ht
    obtain ⟨ht',hnext⟩ := hw.parentTag ht
    rw [hg.side hw.parent,State.next,hg.tg _ hw.parent _ ht']
    exact ⟨ht',hnext⟩
  currentTag := by
    intro ht
    have he := hw.currentTag ht
    rw [hg.side hw.leaf,hg.tg _ hw.leaf _ (by rw [he]; exact ht)]
    exact he
  current := by
    intro n hn
    obtain ⟨hnL,hguided,hflg⟩ := hw.current n hn
    refine ⟨hg.sub hnL,hg.guided key flagged n hnL hi hguided,fun hf => ?_⟩
    rw [hg.side hw.leaf]
    exact (hg.flg _ hw.leaf _ (hflg hf)).1
  stop := fun hnone => hg.ends _ hw.leaf (hw.stop hnone)

theorem At.Inv.mono (hh : here.Inv L s key new flagged) (hi : Injected L s flagged)
    (hown : here.done = false → ∀ i n, new = some (i,n) →
      s'.node i = s.node i ∧ s'.edge i = s.edge i) :
    here.Inv L' s' key new flagged := by
  cases here with
  | seek | returned => trivial
  | first => exact hg.entered hi hh
  | enter => exact ⟨hg.entered hi hh.1,hh.2⟩
  | walk => exact hg.walk h hi hh
  | sought | help => exact hg.sought h hi hh
  | link =>
    obtain ⟨hs,i,n,hnew,hready⟩ := hh
    obtain ⟨hnode,hedge⟩ := hown rfl i n hnew
    refine ⟨hg.sought h hi hs,i,n,hnew,?_⟩
    have hl := hg.node _ hs.leaf
    refine ⟨?_,?_,?_,?_⟩
    · rw [side_congr hnode,hedge]
      exact hready.leaf
    · rw [side_congr hnode,hedge]
      exact hready.other
    · rw [hl,side_congr hnode,side_congr hnode]
      exact hready.sides
    · rw [hl,hnode]
      exact hready.level
  | replace =>
    refine ⟨hg.sought h hi hh.1,?_,hh.2.2⟩
    rw [hg.equal hh.1.leaf]
    exact hh.2.1
  | inject =>
    refine ⟨hg.sought h hi hh.1,?_⟩
    rw [hg.equal hh.1.leaf]
    exact hh.2
  | child =>
    obtain ⟨hs,hmarked⟩ := hh
    refine ⟨hg.sought h hi hs,?_⟩
    rw [hg.side hs.parent]
    rcases hmarked with hf | ht
    · exact .inl (hg.flg _ hs.parent _ hf).1
    · rw [hg.tg _ hs.parent _ ht]
      exact .inr ht
  | sibling =>
    refine ⟨hg.sought h hi hh.1,?_⟩
    rw [hg.side hh.1.parent]
    exact (hg.flg _ hh.1.parent _ hh.2).1
  | untagged => exact hg.cleaning h hi hh
  | tag => exact ⟨hg.cleaning h hi hh.1,hh.2⟩
  | tagged =>
    refine ⟨hg.cleaning h hi hh.1,?_⟩
    rw [hg.tg _ hh.1.parent _ hh.2]
    exact hh.2
  | splice =>
    obtain ⟨sibling,hc,he,ht⟩ := hh
    refine ⟨sibling,hg.cleaning h hi hc,?_,ht⟩
    rw [hg.tg _ hc.parent _ (by rw [he]; exact ht)]
    exact he
  | failed => exact hh

end Mono

end Montage.NatarajanTree
