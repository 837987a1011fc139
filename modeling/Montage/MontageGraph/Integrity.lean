import Montage.MontageGraph.Model

namespace Montage.MontageGraph
open List Option

/-- Each map holds every edge once, under its own key and at the right vertex, there are no
loops, and the two ends of a relation hold the same relation. -/
structure Sound (g : Graph) : Prop where
  sourceKeys : ∀ u, ((source g u).map Prod.fst).Nodup
  destinationKeys : ∀ v, ((destination g v).map Prod.fst).Nodup
  sources : ∀ u e r, (e,r) ∈ source g u → e.1 = u ∧ r.edge = e ∧ e.1 ≠ e.2
  destinations : ∀ v e r, (e,r) ∈ destination g v → e.2 = v
  mirror : ∀ e r, (e,r) ∈ source g e.1 ↔ (e,r) ∈ destination g e.2

variable {g g' g'' : Graph} {m m' : Map} {u v w : Nat} {p e : Edge} {r x : Relation}

theorem find_some (h : find m p = some r) : (p,r) ∈ m := by
  obtain ⟨⟨q,x⟩,hx,rfl⟩ := map_eq_some_iff.mp h
  have hq := find?_some hx
  cases eq_of_beq hq
  exact mem_of_find?_eq_some hx

theorem hasRelation_iff : hasRelation m p = true ↔ ∃ r, (p,r) ∈ m := by
  constructor
  · intro h
    obtain ⟨r,hr⟩ := isSome_iff_exists.mp h
    exact ⟨r,find_some hr⟩
  · rintro ⟨r,hr⟩
    rw [hasRelation,find,isSome_map,find?_isSome]
    exact ⟨(p,r),hr,by simp⟩

theorem find_eq (hkeys : (m.map Prod.fst).Nodup) (h : (p,r) ∈ m) : find m p = some r := by
  obtain ⟨x,hx⟩ := isSome_iff_exists.mp (hasRelation_iff.mpr ⟨r,h⟩)
  rw [hx]
  have := inj_on_of_nodup_map hkeys (find_some hx) h rfl
  simpa using this

theorem emplace_new (h : hasRelation m p = false) : emplace m p r = (m ++ [(p,r)],true) := by
  simp [emplace,h]

theorem emplace_old (h : hasRelation m p = true) : emplace m p r = (m,false) := by
  simp [emplace,h]

theorem emplace_keys (hkeys : (m.map Prod.fst).Nodup) (h : hasRelation m p = false) :
    ((m ++ [(p,r)]).map Prod.fst).Nodup := by
  rw [map_append,nodup_append]
  refine ⟨hkeys,by simp,?_⟩
  intro q hq q' hq' he
  rw [map_singleton,mem_singleton] at hq'
  obtain ⟨⟨q0,x⟩,hx,rfl⟩ := mem_map.mp hq
  obtain rfl : q0 = p := he.trans hq'
  have hold := hasRelation_iff.mpr ⟨x,hx⟩
  exact absurd hold (by simp [h])

theorem mem_remove_relation : (e,x) ∈ (removeRelation m p).1 ↔ (e,x) ∈ m ∧ e ≠ p := by
  simp [removeRelation]

theorem remove_keys (hkeys : (m.map Prod.fst).Nodup) :
    ((removeRelation m p).1.map Prod.fst).Nodup :=
  hkeys.sublist (filter_sublist.map _)

section Maps

theorem source_none (h : ¬g.Present v) : source g v = [] := by
  simp [source,not_not.mp h]

theorem destination_none (h : ¬g.Present v) : destination g v = [] := by
  simp [destination,not_not.mp h]

theorem present_of_source (h : (e,r) ∈ source g v) : g.Present v := by
  by_contra hv
  simp [source_none hv] at h

theorem present_of_destination (h : (e,r) ∈ destination g v) : g.Present v := by
  by_contra hv
  simp [destination_none hv] at h

@[simp] theorem source_set_source (hv : g.Present v) : source (setSource g v m) v = m := by
  obtain ⟨t,ht⟩ := ne_none_iff_exists'.mp hv
  simp [source,setSource,ht]

theorem source_set_source_other (h : w ≠ v) : source (setSource g v m) w = source g w := by
  simp [source,setSource,h]

@[simp] theorem destination_set_source : destination (setSource g v m) w = destination g w := by
  by_cases h : w = v
  · subst h
    cases hw : g.vertex w <;> simp [destination,setSource,hw]
  · simp [destination,setSource,h]

@[simp] theorem destination_set_destination (hv : g.Present v) :
    destination (setDestination g v m) v = m := by
  obtain ⟨t,ht⟩ := ne_none_iff_exists'.mp hv
  simp [destination,setDestination,ht]

theorem destination_set_destination_other (h : w ≠ v) :
    destination (setDestination g v m) w = destination g w := by
  simp [destination,setDestination,h]

@[simp] theorem source_set_destination : source (setDestination g v m) w = source g w := by
  by_cases h : w = v
  · subst h
    cases hw : g.vertex w <;> simp [source,setDestination,hw]
  · simp [source,setDestination,h]

@[simp] theorem present_set_source : (setSource g v m).Present w ↔ g.Present w := by
  by_cases h : w = v
  · subst h
    simp [Graph.Present,setSource]
  · simp [Graph.Present,setSource,h]

@[simp] theorem present_set_destination : (setDestination g v m).Present w ↔ g.Present w := by
  by_cases h : w = v
  · subst h
    simp [Graph.Present,setDestination]
  · simp [Graph.Present,setDestination,h]

theorem set_source_self : setSource g v (source g v) = g := by
  unfold setSource source
  congr 1
  funext w
  by_cases h : w = v
  · subst h
    cases g.vertex w <;> simp
  · simp [h]

theorem set_destination_self : setDestination g v (destination g v) = g := by
  unfold setDestination destination
  congr 1
  funext w
  by_cases h : w = v
  · subst h
    cases g.vertex w <;> simp
  · simp [h]

end Maps

def Shape (g g' : Graph) : Prop :=
  ∀ v, (g'.vertex v).map TVertex.payload = (g.vertex v).map TVertex.payload

theorem Shape.trans (h : Shape g g') (h' : Shape g' g'') : Shape g g'' :=
  fun v => (h' v).trans (h v)

theorem Shape.present (h : Shape g g') : g'.Present v ↔ g.Present v := by
  have hv := congrArg Option.isSome (h v)
  simp only [isSome_map] at hv
  rw [Graph.Present,Graph.Present,← isSome_iff_ne_none,← isSome_iff_ne_none,hv]

theorem shape_set_source : Shape g (setSource g v m) := by
  intro w
  by_cases h : w = v
  · subst h
    cases hw : g.vertex w <;> simp [setSource,hw]
  · simp [setSource,h]

theorem shape_set_destination : Shape g (setDestination g v m) := by
  intro w
  by_cases h : w = v
  · subst h
    cases hw : g.vertex w <;> simp [setDestination,hw]
  · simp [setDestination,h]

/-- The maps of `g'` are those of `g` but for the edges in `drop`, which are gone, and the
relations in `add`, which are new. -/
structure Changed (g : Graph) (drop : Edge → Prop) (add : Relation → Prop) (g' : Graph) :
    Prop where
  sourceKeys : ∀ u, ((source g' u).map Prod.fst).Nodup
  destinationKeys : ∀ v, ((destination g' v).map Prod.fst).Nodup
  sources : ∀ u e r, (e,r) ∈ source g' u ↔
    (e,r) ∈ source g u ∧ ¬drop e ∨ add r ∧ e = r.edge ∧ u = r.src
  destinations : ∀ v e r, (e,r) ∈ destination g' v ↔
    (e,r) ∈ destination g v ∧ ¬drop e ∨ add r ∧ e = r.edge ∧ v = r.dest

variable {drop : Edge → Prop} {add add' : Relation → Prop}

theorem Changed.sound (h : Changed g drop add g') (hs : Sound g)
    (hadd : ∀ r, add r → r.src ≠ r.dest) : Sound g' where
  sourceKeys := h.sourceKeys
  destinationKeys := h.destinationKeys
  sources := by
    intro u e r hr
    rcases (h.sources u e r).mp hr with ⟨hr,-⟩ | ⟨he,rfl,rfl⟩
    · exact hs.sources u e r hr
    · exact ⟨rfl,rfl,hadd r he⟩
  destinations := by
    intro v e r hr
    rcases (h.destinations v e r).mp hr with ⟨hr,-⟩ | ⟨he,rfl,rfl⟩
    · exact hs.destinations v e r hr
    · rfl
  mirror := by
    intro e r
    rw [h.sources,h.destinations,hs.mirror]
    constructor
    · rintro (hr | ⟨he,rfl,-⟩)
      · exact .inl hr
      · exact .inr ⟨he,rfl,rfl⟩
    · rintro (hr | ⟨he,rfl,-⟩)
      · exact .inl hr
      · exact .inr ⟨he,rfl,rfl⟩

theorem mem_emplaced (f : Relation → Nat) : (e,x) ∈ m ++ [(r.edge,r)] ↔
    (e,x) ∈ m ∧ ¬False ∨ x = r ∧ e = x.edge ∧ f r = f x := by
  simp only [mem_append,mem_singleton,Prod.mk.injEq,not_false_eq_true,and_true]
  constructor
  · rintro (hx | ⟨rfl,rfl⟩)
    · exact .inl hx
    · exact .inr ⟨rfl,rfl,rfl⟩
  · rintro (hx | ⟨rfl,rfl,-⟩)
    · exact .inl hx
    · exact .inr ⟨rfl,rfl⟩

theorem mem_elsewhere (f : Relation → Nat) (h : w ≠ f r) : (e,x) ∈ m ↔
    (e,x) ∈ m ∧ ¬False ∨ x = r ∧ e = x.edge ∧ w = f x := by
  refine ⟨fun hx => .inl ⟨hx,not_false⟩,?_⟩
  rintro (hx | ⟨rfl,-,he⟩)
  · exact hx.1
  · exact absurd he h

theorem Changed.inc_seq (h : Changed g drop add g') : Changed g drop add (incSeq g' v) :=
  ⟨h.sourceKeys,h.destinationKeys,h.sources,h.destinations⟩

theorem remove_relation_absent (h : hasRelation m p = false) : removeRelation m p = (m,none) := by
  have hfind : find m p = none := by simpa [hasRelation] using h
  have hfilter : m.filter (·.1 ≠ p) = m := by
    apply filter_eq_self.mpr
    rintro ⟨q,x⟩ hx
    rw [decide_eq_true_eq]
    rintro rfl
    rw [hasRelation_iff.mpr ⟨x,hx⟩] at h
    cases h
  rw [removeRelation,hfind,hfilter]

theorem Changed.and_add (h : Changed g (fun _ => False) add g')
    (h' : Changed g' (fun _ => False) add' g'') :
    Changed g (fun _ => False) (fun r => add r ∨ add' r) g'' where
  sourceKeys := h'.sourceKeys
  destinationKeys := h'.destinationKeys
  sources := by
    intro u e r
    rw [h'.sources,h.sources]
    tauto
  destinations := by
    intro v e r
    rw [h'.destinations,h.destinations]
    tauto

theorem Changed.congr (h : Changed g drop add g') (hadd : ∀ r, add r ↔ add' r) :
    Changed g drop add' g' := by
  obtain rfl : add = add' := funext fun r => propext (hadd r)
  exact h

theorem source_fresh (h : ¬g.Present v) (payload : Addr) (w : Nat) :
    source (fresh g v payload) w = source g w := by
  by_cases hw : w = v
  · subst hw
    rw [source_none h]
    simp [fresh,source]
  · simp [fresh,source,hw]

theorem destination_fresh (h : ¬g.Present v) (payload : Addr) (w : Nat) :
    destination (fresh g v payload) w = destination g w := by
  by_cases hw : w = v
  · subst hw
    rw [destination_none h]
    simp [fresh,destination]
  · simp [fresh,destination,hw]

theorem present_fresh (payload : Addr) : (fresh g v payload).Present w ↔ w = v ∨ g.Present w := by
  by_cases hw : w = v <;> simp [fresh,Graph.Present,hw]

theorem mem_sort_unique {l : List Nat} : v ∈ sortUnique l ↔ v ∈ l := by
  rw [sortUnique,mem_dedup,mem_insertionSort]

theorem sort_unique_sorted (l : List Nat) : (sortUnique l).Pairwise (· < ·) := by
  have hle : (sortUnique l).Pairwise (· ≤ ·) :=
    (pairwise_insertionSort (· ≤ ·) l).sublist (dedup_sublist _)
  have hne : (sortUnique l).Pairwise (· ≠ ·) := nodup_dedup _
  exact (hle.and hne).imp fun h => lt_of_le_of_ne h.1 h.2

def Adjacent (g : Graph) (v w : Nat) : Prop :=
  hasRelation (source g v) (v,w) = true ∨ hasRelation (source g w) (w,v) = true

def given (g : Graph) (vid w : Nat) : Option Relation :=
  if w = vid then none else find (source g w) (w,vid)

/-- The vertices in `others` have forgotten their edges to and from `vid`. -/
structure Detached (g : Graph) (vid : Nat) (others : List Nat) (g' : Graph) : Prop where
  sources : ∀ w, source g' w =
    if w ∈ others ∧ w ≠ vid then (removeRelation (source g w) (w,vid)).1 else source g w
  destinations : ∀ w, destination g' w =
    if w ∈ others ∧ w ≠ vid then (removeRelation (destination g w) (vid,w)).1
    else destination g w
  shape : Shape g g'
  seqs : g'.vertexSeqs = g.vertexSeqs

theorem detach_spec (hw : w ≠ v) (hp : g.Present w)
    (hadj : hasRelation (source g w) (w,v) = true ∨ hasRelation (destination g w) (v,w) = true)
    (deleted : List Relation) :
    ∃ g', detach v (g,deleted) w = .ok (g',deleted ++ (given g v w).toList) ∧
      Detached g v [w] g' := by
  have hnot : ¬(¬hasRelation (source g w) (w,v) = true ∧
      ¬hasRelation (destination g w) (v,w) = true) := by tauto
  refine ⟨_,by rw [detach,if_neg hw,if_neg (not_not.mpr hp),if_neg hnot,given,if_neg hw]; rfl,
    ?_,?_,shape_set_source.trans shape_set_destination,rfl⟩
  · intro x
    rw [source_set_destination]
    by_cases hx : x = w
    · simp [hx,hw,source_set_source hp]
    · simp [hx,source_set_source_other hx]
  · intro x
    by_cases hx : x = w
    · simp [hx,hw,destination_set_destination (present_set_source.mpr hp)]
    · simp [hx,destination_set_destination_other hx]

def At (v : Nat) (e : Edge) : Prop := e.1 = v ∨ e.2 = v

section
variable (hs : Sound g)
include hs

theorem Sound.unchanged : Changed g (fun _ => False) (fun _ => False) g :=
  ⟨hs.sourceKeys,hs.destinationKeys,by simp,by simp⟩

theorem Sound.has_iff (e : Edge) :
    hasRelation (source g e.1) e = hasRelation (destination g e.2) e := by
  rw [Bool.eq_iff_iff,hasRelation_iff,hasRelation_iff]
  exact exists_congr fun r => hs.mirror e r

theorem Sound.find_iff (e : Edge) : find (source g e.1) e = find (destination g e.2) e := by
  cases h : find (source g e.1) e with
  | some r => exact (find_eq (hs.destinationKeys _) ((hs.mirror e r).mp (find_some h))).symm
  | none =>
    cases h' : find (destination g e.2) e with
    | none => rfl
    | some r =>
      rw [find_eq (hs.sourceKeys _) ((hs.mirror e r).mpr (find_some h'))] at h
      cases h

theorem link_old (h : hasRelation (source g r.src) r.edge = true) : link g r = (g,false,false) := by
  have h' : hasRelation (destination g r.dest) r.edge = true := by
    rw [← h]
    exact (hs.has_iff r.edge).symm
  simp only [link,emplace_old h,emplace_old h',set_source_self,set_destination_self]

theorem link_new (hsrc : g.Present r.src) (hdest : g.Present r.dest)
    (h : hasRelation (source g r.src) r.edge = false) :
    ∃ g', link g r = (g',true,true) ∧ Changed g (fun _ => False) (· = r) g' ∧ Shape g g' ∧
      g'.vertexSeqs = g.vertexSeqs := by
  have h' : hasRelation (destination g r.dest) r.edge = false := by
    rw [← h]
    exact (hs.has_iff r.edge).symm
  refine ⟨_,by simp only [link,emplace_new h,emplace_new h']; rfl,⟨?_,?_,?_,?_⟩,
    shape_set_source.trans shape_set_destination,rfl⟩
  · intro u
    rw [source_set_destination]
    by_cases hu : u = r.src
    · rw [hu,source_set_source hsrc]
      exact emplace_keys (hs.sourceKeys _) h
    · rw [source_set_source_other hu]
      exact hs.sourceKeys u
  · intro v
    by_cases hv : v = r.dest
    · rw [hv,destination_set_destination (present_set_source.mpr hdest)]
      exact emplace_keys (hs.destinationKeys _) h'
    · rw [destination_set_destination_other hv,destination_set_source]
      exact hs.destinationKeys v
  · intro u e x
    rw [source_set_destination]
    by_cases hu : u = r.src
    · rw [hu,source_set_source hsrc]
      exact mem_emplaced Relation.src
    · rw [source_set_source_other hu]
      exact mem_elsewhere Relation.src hu
  · intro v e x
    by_cases hv : v = r.dest
    · rw [hv,destination_set_destination (present_set_source.mpr hdest)]
      exact mem_emplaced Relation.dest
    · rw [destination_set_destination_other hv,destination_set_source]
      exact mem_elsewhere Relation.dest hv

theorem add_edge_spec : addEdge g r = .ok (g,false) ∧
      (g.Present r.src → g.Present r.dest → hasRelation (source g r.src) r.edge = true) ∨
    ∃ g', addEdge g r = .ok (g',true) ∧ g.Present r.src ∧ g.Present r.dest ∧
      Changed g (fun _ => False) (· = r) g' ∧ Shape g g' ∧
      hasRelation (source g r.src) r.edge = false ∧
      g'.vertexSeqs = (incSeq (incSeq g r.src) r.dest).vertexSeqs := by
  by_cases hp : ¬g.Present r.src ∨ ¬g.Present r.dest
  · refine .inl ⟨by simp [addEdge,hp],?_⟩
    intro hsrc hdest
    exact absurd hp (not_or.mpr ⟨not_not.mpr hsrc,not_not.mpr hdest⟩)
  · obtain ⟨hsrc,hdest⟩ := not_or.mp hp
    cases h : hasRelation (source g r.src) r.edge with
    | true => exact .inl ⟨by simp [addEdge,hp,link_old hs h],fun _ _ => rfl⟩
    | false =>
      obtain ⟨g',hlink,hchanged,hshape,hseqs⟩ := link_new hs (not_not.mp hsrc) (not_not.mp hdest) h
      refine .inr ⟨incSeq (incSeq g' r.src) r.dest,by simp [addEdge,hp,hlink],not_not.mp hsrc,
        not_not.mp hdest,hchanged.inc_seq.inc_seq,hshape,rfl,?_⟩
      simp only [incSeq,hseqs]

theorem unlink_changed (hsrc : g.Present p.1) (hdest : g.Present p.2) :
    Changed g (· = p) (fun _ => False)
      (setDestination (setSource g p.1 (removeRelation (source g p.1) p).1) p.2
        (removeRelation (destination g p.2) p).1) := by
  refine ⟨?_,?_,?_,?_⟩
  · intro u
    rw [source_set_destination]
    by_cases hu : u = p.1
    · rw [hu,source_set_source hsrc]
      exact remove_keys (hs.sourceKeys _)
    · rw [source_set_source_other hu]
      exact hs.sourceKeys u
  · intro v
    by_cases hv : v = p.2
    · rw [hv,destination_set_destination (present_set_source.mpr hdest)]
      exact remove_keys (hs.destinationKeys _)
    · rw [destination_set_destination_other hv,destination_set_source]
      exact hs.destinationKeys v
  · intro u e x
    simp only [source_set_destination,false_and,or_false]
    by_cases hu : u = p.1
    · rw [hu,source_set_source hsrc]
      exact mem_remove_relation
    · rw [source_set_source_other hu]
      refine ⟨fun hx => ⟨hx,?_⟩,And.left⟩
      rintro rfl
      exact hu (hs.sources u e x hx).1.symm
  · intro v e x
    simp only [false_and,or_false]
    by_cases hv : v = p.2
    · rw [hv,destination_set_destination (present_set_source.mpr hdest)]
      exact mem_remove_relation
    · rw [destination_set_destination_other hv,destination_set_source]
      refine ⟨fun hx => ⟨hx,?_⟩,And.left⟩
      rintro rfl
      exact hv (hs.destinations v e x hx).symm

theorem remove_edge_spec (src dest : Nat) : removeEdge g src dest = .ok (g,none) ∨
    ∃ g' r, removeEdge g src dest = .ok (g',some r) ∧ ((src,dest),r) ∈ source g src ∧
      Changed g (· = (src,dest)) (fun _ => False) g' ∧ Shape g g' ∧
      g'.vertexSeqs = (incSeq (incSeq g src) dest).vertexSeqs := by
  by_cases hp : g.Present src ∧ g.Present dest
  · cases h : find (source g src) (src,dest) with
    | none =>
      have hsrc : hasRelation (source g src) (src,dest) = false := by simp [hasRelation,h]
      have hdest : hasRelation (destination g dest) (src,dest) = false := by
        rw [← hsrc]
        exact (hs.has_iff (src,dest)).symm
      refine .inl ?_
      simp [removeEdge,hp,remove_relation_absent hsrc,remove_relation_absent hdest,
        set_source_self,set_destination_self]
    | some r =>
      have hdest : find (destination g dest) (src,dest) = some r :=
        (hs.find_iff (src,dest)).symm.trans h
      refine .inr ⟨_,r,?_,find_some h,(unlink_changed hs hp.1 hp.2).inc_seq.inc_seq,
        shape_set_source.trans shape_set_destination,rfl⟩
      simp [removeEdge,hp,removeRelation,h,hdest]
  · exact .inl (by simp [removeEdge,hp])

theorem join_spec (hsrc : g.Present r.src) (hnew : hasRelation (source g r.src) r.edge = false) :
    (¬g.Present r.dest ∨ r.dest = r.src) ∧ join r.src g r = g ∨
    g.Present r.dest ∧ r.dest ≠ r.src ∧ Changed g (fun _ => False) (· = r) (join r.src g r) ∧
      Shape g (join r.src g r) ∧ (join r.src g r).vertexSeqs = g.vertexSeqs := by
  by_cases hskip : ¬g.Present r.dest ∨ r.dest = r.src
  · exact .inl ⟨hskip,by rw [join,if_pos hskip]⟩
  · obtain ⟨hdest,hne⟩ := not_or.mp hskip
    obtain ⟨g',hlink,hchanged,hshape,hseqs⟩ := link_new hs hsrc (not_not.mp hdest) hnew
    have hjoin : join r.src g r = g' := by rw [join,if_neg hskip,hlink]
    rw [hjoin]
    exact .inr ⟨not_not.mp hdest,hne,hchanged,hshape,hseqs⟩

omit hs in
theorem joins_spec (rs : List Relation) (hs : Sound g) (hvid : g.Present u)
    (hsrc : ∀ r ∈ rs, r.src = u) (hnew : ∀ r ∈ rs, hasRelation (source g u) r.edge = false)
    (hdistinct : (rs.map Relation.dest).Nodup) :
    Changed g (fun _ => False) (fun r => r ∈ rs ∧ g.Present r.dest ∧ r.dest ≠ u)
        (rs.foldl (join u) g) ∧
      Shape g (rs.foldl (join u) g) ∧ (rs.foldl (join u) g).vertexSeqs = g.vertexSeqs := by
  induction rs generalizing g with
  | nil => exact ⟨hs.unchanged.congr (by simp),fun _ => rfl,rfl⟩
  | cons r rs ih =>
    obtain rfl := hsrc r mem_cons_self
    obtain ⟨hr,hdistinct⟩ := nodup_cons.mp hdistinct
    have hrest : ∀ x ∈ rs, x.src = r.src := fun x hx => hsrc x (mem_cons_of_mem _ hx)
    have hnewrest := fun x hx => hnew x (mem_cons_of_mem _ hx)
    rw [foldl_cons]
    rcases join_spec hs hvid (hnew r mem_cons_self) with
      ⟨hskip,hjoin⟩ | ⟨hpresent,hne,hchanged,hshape,hseqs⟩
    · rw [hjoin]
      obtain ⟨hc,hshape,hseqs⟩ := ih hs hvid hrest hnewrest hdistinct
      refine ⟨hc.congr fun x => ?_,hshape,hseqs⟩
      rw [mem_cons]
      refine ⟨fun hx => ⟨.inr hx.1,hx.2⟩,?_⟩
      rintro ⟨rfl | hx,hdest,hne⟩
      · exact absurd (Or.resolve_left hskip (not_not.mpr hdest)) hne
      · exact ⟨hx,hdest,hne⟩
    · have hs' := hchanged.sound hs (by rintro x rfl; exact hne.symm)
      have hnew' : ∀ x ∈ rs, hasRelation (source (join r.src g r) r.src) x.edge = false := by
        intro x hx
        rw [Bool.eq_false_iff]
        intro hold
        obtain ⟨y,hy⟩ := hasRelation_iff.mp hold
        rcases (hchanged.sources _ _ _).mp hy with ⟨hy,-⟩ | ⟨rfl,he,-⟩
        · have hnone := hnewrest x hx
          rw [hasRelation_iff.mpr ⟨y,hy⟩] at hnone
          cases hnone
        · exact hr (mem_map.mpr ⟨x,hx,congrArg Prod.snd he⟩)
      obtain ⟨hc,hshape',hseqs'⟩ := ih hs' (hshape.present.mpr hvid) hrest hnew' hdistinct
      refine ⟨(hchanged.and_add hc).congr fun x => ?_,hshape.trans hshape',hseqs'.trans hseqs⟩
      rw [mem_cons,hshape.present]
      constructor
      · rintro (rfl | ⟨hx,hrest⟩)
        · exact ⟨.inl rfl,hpresent,hne⟩
        · exact ⟨.inr hx,hrest⟩
      · rintro ⟨rfl | hx,hrest⟩
        · exact .inl rfl
        · exact .inr ⟨hx,hrest⟩

theorem fresh_changed (h : ¬g.Present v) (payload : Addr) :
    Changed g (fun _ => False) (fun _ => False) (fresh g v payload) where
  sourceKeys := fun u => by
    rw [source_fresh h]
    exact hs.sourceKeys u
  destinationKeys := fun w => by
    rw [destination_fresh h]
    exact hs.destinationKeys w
  sources := fun u e r => by simp [source_fresh h]
  destinations := fun w e r => by simp [destination_fresh h]

theorem add_vertex_spec {vec : List Nat} (h : ¬g.Present v) (hvec : vec.Nodup)
    (payload : Addr) (addrs : Nat → Addr) :
    ∃ g', addVertex g v payload vec addrs = (g',true) ∧
      Changed g (fun _ => False) (fun r => ∃ u ∈ vec, g.Present u ∧ r = ⟨addrs u,-1,v,u⟩) g' ∧
      Shape (fresh g v payload) g' ∧ g'.vertexSeqs = g.vertexSeqs := by
  have hfresh := fresh_changed hs h payload
  have hs' : Sound (fresh g v payload) := hfresh.sound hs (by simp)
  have hnone : source (fresh g v payload) v = [] := (source_fresh h payload v).trans (source_none h)
  obtain ⟨hc,hshape,hseqs⟩ := joins_spec (vec.map fun u => ⟨addrs u,-1,v,u⟩) hs'
    ((present_fresh payload).mpr (.inl rfl)) (by simp) (by simp [hnone,hasRelation,find])
    (by simpa [List.map_map,Function.comp_def] using hvec)
  refine ⟨_,by rw [addVertex,if_neg h],(hfresh.and_add hc).congr fun r => ?_,hshape,hseqs⟩
  simp only [false_or,List.mem_map,present_fresh]
  constructor
  · rintro ⟨⟨u,hu,rfl⟩,hp,hne⟩
    exact ⟨u,hu,Or.resolve_left hp hne,rfl⟩
  · rintro ⟨u,hu,hp,rfl⟩
    exact ⟨⟨u,hu,rfl⟩,.inr hp,fun he => h (he ▸ hp)⟩

theorem mem_neighbours : w ∈ neighbours g v ↔ w = v ∨ Adjacent g v w := by
  simp only [neighbours,mem_sort_unique,mem_append,List.mem_map,mem_singleton,Prod.exists,
    Adjacent,hasRelation_iff]
  constructor
  · rintro ((⟨u,x,r,hr,rfl⟩ | ⟨u,x,r,hr,rfl⟩) | hw)
    · obtain ⟨rfl,he,-⟩ := hs.sources v _ r hr
      refine .inr (.inl ⟨r,?_⟩)
      rw [show r.dest = x from congrArg Prod.snd he]
      exact hr
    · have hx : x = v := hs.destinations v _ r hr
      subst hx
      have hr' := (hs.mirror (u,x) r).mpr hr
      obtain ⟨-,he,-⟩ := hs.sources _ _ r hr'
      have hsrc : r.src = u := congrArg Prod.fst he
      refine .inr (.inr ⟨r,?_⟩)
      rw [hsrc]
      exact hr'
    · exact .inl hw
  · rintro (rfl | ⟨r,hr⟩ | ⟨r,hr⟩)
    · exact .inr rfl
    · obtain ⟨-,he,-⟩ := hs.sources v _ r hr
      exact .inl (.inl ⟨v,w,r,hr,congrArg Prod.snd he⟩)
    · obtain ⟨-,he,-⟩ := hs.sources w _ r hr
      exact .inl (.inr ⟨w,v,r,(hs.mirror (w,v) r).mp hr,congrArg Prod.fst he⟩)

theorem Adjacent.present (h : Adjacent g v w) : g.Present w := by
  rcases h with h | h
  · obtain ⟨r,hr⟩ := hasRelation_iff.mp h
    exact present_of_destination ((hs.mirror (v,w) r).mp hr)
  · obtain ⟨r,hr⟩ := hasRelation_iff.mp h
    exact present_of_source hr

theorem Sound.source_at (hw : w ≠ v) (hr : (e,r) ∈ source g w) : At v e ↔ e = (w,v) := by
  obtain ⟨rfl,-,-⟩ := hs.sources w e r hr
  exact ⟨fun h => Prod.ext rfl (Or.resolve_left h hw),fun h => .inr (congrArg Prod.snd h)⟩

theorem Sound.destination_at (hw : w ≠ v) (hr : (e,r) ∈ destination g w) : At v e ↔ e = (v,w) := by
  obtain rfl := hs.destinations w e r hr
  exact ⟨fun h => Prod.ext (Or.resolve_right h hw) rfl,fun h => .inl (congrArg Prod.fst h)⟩

end

theorem detaches_spec {others : List Nat} (hdistinct : others.Nodup)
    (hadj : ∀ w ∈ others, w ≠ v → g.Present w ∧
      (hasRelation (source g w) (w,v) = true ∨ hasRelation (destination g w) (v,w) = true))
    (deleted : List Relation) :
    ∃ g', others.foldlM (detach v) (g,deleted) = .ok (g',deleted ++ others.filterMap (given g v)) ∧
      Detached g v others g' := by
  induction others generalizing g deleted with
  | nil => exact ⟨g,by simp [pure,Except.pure],by simp,by simp,fun _ => rfl,rfl⟩
  | cons w others ih =>
    obtain ⟨hw,hdistinct⟩ := nodup_cons.mp hdistinct
    have hrest := fun x hx => hadj x (mem_cons_of_mem _ hx)
    rw [foldlM_cons]
    by_cases hv : w = v
    · obtain ⟨g',hg',hd⟩ := ih hdistinct hrest deleted
      refine ⟨g',?_,?_,?_,hd.shape,hd.seqs⟩
      · simp [detach,hv,bind,Except.bind,hg',given]
      · intro x
        rw [hd.sources]
        simp only [mem_cons]
        by_cases hx : x = v <;> simp [hx,hv]
      · intro x
        rw [hd.destinations]
        simp only [mem_cons]
        by_cases hx : x = v <;> simp [hx,hv]
    · obtain ⟨hp,hw'⟩ := hadj w mem_cons_self hv
      obtain ⟨g1,hg1,hd1⟩ := detach_spec hv hp hw' deleted
      have hother : ∀ x ∈ others, source g1 x = source g x ∧ destination g1 x = destination g x := by
        intro x hx
        have hne : x ≠ w := fun he => hw (he ▸ hx)
        rw [hd1.sources,hd1.destinations]
        simp [hne]
      have hadj1 : ∀ x ∈ others, x ≠ v → g1.Present x ∧
          (hasRelation (source g1 x) (x,v) = true ∨
            hasRelation (destination g1 x) (v,x) = true) := by
        intro x hx hxv
        rw [hd1.shape.present,(hother x hx).1,(hother x hx).2]
        exact hrest x hx hxv
      obtain ⟨g',hg',hd⟩ := ih hdistinct hadj1 (deleted ++ (given g v w).toList)
      have hgiven : others.filterMap (given g1 v) = others.filterMap (given g v) := by
        apply filterMap_congr
        intro x hx
        rw [given,given,(hother x hx).1]
      refine ⟨g',?_,?_,?_,hd1.shape.trans hd.shape,hd.seqs.trans hd1.seqs⟩
      · rw [hg1]
        simp only [bind,Except.bind,hg',hgiven,append_assoc]
        cases hgive : given g v w <;> simp [hgive]
      · intro x
        rw [hd.sources,hd1.sources]
        by_cases hx : x = w
        · simp [hx,hw]
        · simp [hx]
      · intro x
        rw [hd.destinations,hd1.destinations]
        by_cases hx : x = w
        · simp [hx,hw]
        · simp [hx]

section RemoveVertex
variable {others : List Nat}

theorem source_destroy (w : Nat) : source (destroy g v) w = if w = v then [] else source g w := by
  by_cases hw : w = v <;> simp [source,destroy,hw]

theorem destination_destroy (w : Nat) :
    destination (destroy g v) w = if w = v then [] else destination g w := by
  by_cases hw : w = v <;> simp [destination,destroy,hw]

section
variable (hd : Detached g v others g')
include hd

/-- Every neighbour is in `others`, so what it has lost is all that it had of the vertex. -/
theorem Detached.source_lost (hs : Sound g)
    (hothers : ∀ w, w ∈ others ↔ w = v ∨ Adjacent g v w) (hw : w ≠ v) :
    (e,r) ∈ source g' w ↔ (e,r) ∈ source g w ∧ ¬At v e := by
  rw [hd.sources]
  split
  next =>
    rw [mem_remove_relation]
    exact and_congr_right fun hr => not_congr (hs.source_at hw hr).symm
  next hout =>
    refine ⟨fun hr => ⟨hr,fun hat => hout ⟨(hothers w).mpr (.inr (.inr ?_)),hw⟩⟩,And.left⟩
    rw [(hs.source_at hw hr).mp hat] at hr
    exact hasRelation_iff.mpr ⟨r,hr⟩

theorem Detached.destination_lost (hs : Sound g)
    (hothers : ∀ w, w ∈ others ↔ w = v ∨ Adjacent g v w) (hw : w ≠ v) :
    (e,r) ∈ destination g' w ↔ (e,r) ∈ destination g w ∧ ¬At v e := by
  rw [hd.destinations]
  split
  next =>
    rw [mem_remove_relation]
    exact and_congr_right fun hr => not_congr (hs.destination_at hw hr).symm
  next hout =>
    refine ⟨fun hr => ⟨hr,fun hat => hout ⟨(hothers w).mpr (.inr (.inl ?_)),hw⟩⟩,And.left⟩
    rw [(hs.destination_at hw hr).mp hat] at hr
    rw [hs.has_iff (v,w)]
    exact hasRelation_iff.mpr ⟨r,hr⟩

theorem Detached.keys (hs : Sound g) (w : Nat) :
    ((source g' w).map Prod.fst).Nodup ∧ ((destination g' w).map Prod.fst).Nodup := by
  rw [hd.sources,hd.destinations]
  split
  next => exact ⟨remove_keys (hs.sourceKeys w),remove_keys (hs.destinationKeys w)⟩
  next => exact ⟨hs.sourceKeys w,hs.destinationKeys w⟩

theorem Detached.changed (hs : Sound g) (hothers : ∀ w, w ∈ others ↔ w = v ∨ Adjacent g v w) :
    Changed g (At v) (fun _ => False) (destroy g' v) where
  sourceKeys := by
    intro u
    rw [source_destroy]
    split
    next => exact nodup_nil
    next => exact (hd.keys hs u).1
  destinationKeys := by
    intro w
    rw [destination_destroy]
    split
    next => exact nodup_nil
    next => exact (hd.keys hs w).2
  sources := by
    intro u e r
    simp only [source_destroy,false_and,or_false]
    split
    next hu =>
      refine ⟨fun h => absurd h not_mem_nil,?_⟩
      rintro ⟨hr,hat⟩
      exact absurd (.inl ((hs.sources u e r hr).1.trans hu)) hat
    next hu => exact hd.source_lost hs hothers hu
  destinations := by
    intro w e r
    simp only [destination_destroy,false_and,or_false]
    split
    next hw =>
      refine ⟨fun h => absurd h not_mem_nil,?_⟩
      rintro ⟨hr,hat⟩
      exact absurd (.inr ((hs.destinations w e r hr).trans hw)) hat
    next hw => exact hd.destination_lost hs hothers hw

end

def dropped (g : Graph) (vid : Nat) (others : List Nat) : List Relation :=
  others.filterMap (given g vid) ++ (source g vid).map Prod.snd

theorem given_some : given g v w = some r ↔ w ≠ v ∧ find (source g w) (w,v) = some r := by
  by_cases hw : w = v <;> simp [given,hw]

theorem mem_dropped (hs : Sound g) (hothers : ∀ w, w ∈ others ↔ w = v ∨ Adjacent g v w) :
    r ∈ dropped g v others ↔ At v r.edge ∧ (r.edge,r) ∈ source g r.src := by
  simp only [dropped,mem_append,mem_filterMap,given_some,List.mem_map,Prod.exists,
    exists_eq_right]
  constructor
  · rintro (⟨w,-,-,hfind⟩ | ⟨u,x,hr⟩)
    · obtain ⟨-,he,-⟩ := hs.sources w _ r (find_some hfind)
      have hsrc : r.src = w := congrArg Prod.fst he
      rw [hsrc,he]
      exact ⟨.inr rfl,find_some hfind⟩
    · obtain ⟨rfl,he,-⟩ := hs.sources v _ r hr
      have hsrc : r.src = u := congrArg Prod.fst he
      rw [hsrc,he]
      exact ⟨.inl rfl,hr⟩
  · rintro ⟨hat,hr⟩
    obtain ⟨-,-,hne⟩ := hs.sources _ _ r hr
    by_cases hsrc : r.src = v
    · exact .inr ⟨r.src,r.dest,hsrc ▸ hr⟩
    · have hdest : r.dest = v := Or.resolve_left hat hsrc
      have hr' : ((r.src,v),r) ∈ source g r.src := hdest ▸ hr
      exact .inl ⟨r.src,(hothers _).mpr (.inr (.inr (hasRelation_iff.mpr ⟨r,hr'⟩))),hsrc,
        find_eq (hs.sourceKeys _) hr'⟩

theorem dropped_nodup (hs : Sound g) (hdistinct : others.Nodup) :
    ((dropped g v others).map Relation.edge).Nodup := by
  have hown : (source g v).map (Relation.edge ∘ Prod.snd) = (source g v).map Prod.fst :=
    map_congr_left fun er hr => (hs.sources v er.1 er.2 hr).2.1
  rw [dropped,map_append,List.map_map,hown,nodup_append]
  refine ⟨?_,hs.sourceKeys v,?_⟩
  · rw [map_filterMap]
    refine hdistinct.filterMap ?_
    intro w w' e he he'
    obtain ⟨r,hr,rfl⟩ := map_eq_some_iff.mp he
    obtain ⟨r',hr',hedge⟩ := map_eq_some_iff.mp he'
    have hw := (hs.sources w _ r (find_some (given_some.mp hr).2)).2.1
    have hw' := (hs.sources w' _ r' (find_some (given_some.mp hr').2)).2.1
    exact congrArg Prod.fst (hw.symm.trans (hedge.symm.trans hw'))
  · intro e he e' he' heq
    obtain ⟨r,hr,rfl⟩ := mem_map.mp he
    obtain ⟨w,-,hw⟩ := mem_filterMap.mp hr
    obtain ⟨hne,hfind⟩ := given_some.mp hw
    obtain ⟨⟨q,y⟩,hy,rfl⟩ := mem_map.mp he'
    have h1 := (hs.sources w _ r (find_some hfind)).2.1
    have h2 := (hs.sources v _ y hy).1
    simp only at heq
    rw [← heq,h1] at h2
    exact hne h2

/-- Step 3 of `remove_vertex` on the vertex and its neighbours: neither a null pointer is
followed nor is the program aborted, and all edges at the vertex are gone. -/
theorem remove_vertex_spec (hs : Sound g) (hv : g.Present v) (hdistinct : others.Nodup)
    (hothers : ∀ w, w ∈ others ↔ w = v ∨ Adjacent g v w) :
    ∃ g' t, removeVertex g v others = .ok (destroy g' v,dropped g v others,t.payload) ∧
      g.vertex v = some t ∧ Shape g g' ∧ g'.vertexSeqs = g.vertexSeqs ∧
      Changed g (At v) (fun _ => False) (destroy g' v) := by
  have hadj : ∀ w ∈ others, w ≠ v → g.Present w ∧
      (hasRelation (source g w) (w,v) = true ∨ hasRelation (destination g w) (v,w) = true) := by
    intro w hw hne
    have ha := Or.resolve_left ((hothers w).mp hw) hne
    rw [← hs.has_iff (v,w)]
    exact ⟨ha.present hs,ha.symm⟩
  obtain ⟨g1,hg1,hd⟩ := detaches_spec hdistinct hadj []
  obtain ⟨t1,ht1⟩ := ne_none_iff_exists'.mp (hd.shape.present.mpr hv)
  obtain ⟨t,ht⟩ := ne_none_iff_exists'.mp hv
  have hpayload : t1.payload = t.payload := by simpa [ht,ht1] using hd.shape v
  have hown : t1.adjacencyList = source g v := by
    have h := hd.sources v
    simpa [source,ht1] using h
  refine ⟨g1,t,?_,ht,hd.shape,hd.seqs,hd.changed hs hothers⟩
  simp [removeVertex,hg1,bind,Except.bind,ht1,pure,Except.pure,hpayload,hown,dropped,destroy]

end RemoveVertex

end Montage.MontageGraph
