import Montage.MontageGraph.Locks

namespace Montage.MontageGraph.Locks
open Library Function List

def Pc.held : Pc → List Nat
  | .idle _ => []
  | .acquiring _ held _ | .validating _ _ held _ | .restarting _ held | .releasing _ held _ => held

def Pc.ids : Pc → List Nat
  | .idle _ => []
  | .acquiring _ held todo | .validating _ _ held todo => held ++ todo
  | .restarting vid held => vid :: held
  | .releasing _ held _ => held

structure Same (g g' : Graph) (v : Nat) : Prop where
  seq : g'.vertexSeqs v = g.vertexSeqs v
  present : g'.Present v ↔ g.Present v
  adjacent : ∀ w, Adjacent g' v w ↔ Adjacent g v w

def Due (g : Graph) (bump : Bump) (v : Nat) : Prop :=
  bump = .always ∨ ∃ vid, bump = .ifPresent vid ∧ g.Present v ∧ (v = vid ∨ Adjacent g v vid)

/-- The vertices that `remove_vertex` has collected are still the neighbours, or their change
has not been announced yet by the thread that made it, which holds on to the lock. -/
inductive Fresh (s : State) (vid : Nat) (vertices : List Nat) : Prop
  | exact (present : s.graph.Present vid)
      (neighbours : ∀ w, w ∈ vertices ↔ w = vid ∨ Adjacent s.graph vid w)
  | pending (t : Nat) (bump : Bump) (held : List Nat) (ret : Bool)
      (here : s.pc t = .releasing bump held ret) (holds : vid ∈ held) (due : Due s.graph bump vid)
      (below : ∀ w ∈ vertices, w < vid → Adjacent s.graph vid w ∨ w ∈ held)

/-- The sequence number that `remove_vertex` has read, `d` increments ago. -/
structure Tracks (s : State) (vid seq : Nat) (vertices : List Nat) (d : Nat) : Prop where
  small : seq < 2 ^ 32
  count : d ≤ s.incs
  seq : s.graph.vertexSeqs vid = (seq + d) % 2 ^ 32
  fresh : d = 0 → Fresh s vid vertices

def Pc.Inv (s : State) : Pc → Prop
  | .idle _ => True
  | .acquiring call held todo => held.reverse ++ todo = call.locks ∧ call.loops = false
  | .validating vid seq held todo => (held.reverse ++ todo).Pairwise (· < ·) ∧
      vid ∈ held.reverse ++ todo ∧ ∃ d, Tracks s vid seq (held.reverse ++ todo) d
  | .restarting _ held | .releasing _ held _ => held.Pairwise (· > ·)

structure Inv (numVertices : Nat) (s : State) : Prop where
  intact : s.crashed = none
  sound : Sound s.graph
  small : ∀ v, s.graph.vertexSeqs v < 2 ^ 32
  range : ∀ v, s.graph.Present v → v < numVertices
  locks : ∀ v t, s.lock v = some t ↔ v ∈ (s.pc t).held
  ids : ∀ t, ∀ v ∈ (s.pc t).ids, v < numVertices
  pcs : ∀ t, (s.pc t).Inv s

variable {s s' : State} {g g' : Graph} {t u v w vid seq d N : Nat} {vertices held todo : List Nat}
  {bump : Bump} {ret : Bool} {call : Call}

theorem Pc.held_ids {pc : Pc} (h : v ∈ pc.held) : v ∈ pc.ids := by
  cases pc with
  | idle => cases h
  | acquiring | validating => exact mem_append_left _ h
  | restarting => exact mem_cons_of_mem _ h
  | releasing => exact h

theorem Same.refl (g : Graph) (v : Nat) : Same g g v := ⟨rfl,.rfl,fun _ => .rfl⟩

theorem Due.same (h : Due g bump v) (hs : Same g g' v) : Due g' bump v := by
  rcases h with h | ⟨vid,h,hp,ha⟩
  · exact .inl h
  · exact .inr ⟨vid,h,hs.present.mpr hp,ha.imp_right (hs.adjacent vid).mpr⟩

theorem Due.applies (h : Due g bump v) (hs : Sound g) : bump.applies g v = true := by
  rcases h with rfl | ⟨vid,rfl,hp,ha⟩
  · rfl
  · have hvid : g.Present vid := by
      rcases ha with rfl | ha
      · exact hp
      · exact ha.present hs
    simp [Bump.applies,hvid,hp]

def Bumped (s s' : State) (v : Nat) : Prop :=
  s'.graph.vertexSeqs v = (s.graph.vertexSeqs v + 1) % 2 ^ 32 ∧ s.incs + 1 ≤ s'.incs

/-- What a step of thread `t` may do: a vertex changes only for the holder of its lock, who
increments the sequence number at once or is about to. -/
structure Moves (s s' : State) (t : Nat) : Prop where
  incs : s.incs ≤ s'.incs
  others : ∀ u, u ≠ t → s'.pc u = s.pc u
  effect : ∀ v, Same s.graph s'.graph v ∨ s.lock v = some t ∧ (Bumped s s' v ∨
    s'.graph.vertexSeqs v = s.graph.vertexSeqs v ∧
      ∃ bump held ret, s'.pc t = .releasing bump held ret ∧ v ∈ held ∧ Due s'.graph bump v ∧
        ∀ w, Adjacent s.graph v w → w < v → Adjacent s'.graph v w ∨ w ∈ held)
  keeps : ∀ bump held ret v, s.pc t = .releasing bump held ret → v ∈ held → Due s.graph bump v →
    Bumped s s' v ∨ Same s.graph s'.graph v ∧ ∃ held', s'.pc t = .releasing bump held' ret ∧
      v ∈ held' ∧ ∀ w ∈ held, w < v → w ∈ held'

/-- The neighbours that were collected stay fresh until the sequence number is incremented. -/
theorem Fresh.moves (h : Fresh s vid vertices) (hm : Moves s s' t)
    (hlocks : ∀ v t, s.lock v = some t ↔ v ∈ (s.pc t).held) :
    Bumped s s' vid ∨
      s'.graph.vertexSeqs vid = s.graph.vertexSeqs vid ∧ Fresh s' vid vertices := by
  cases h with
  | exact present neighbours =>
    rcases hm.effect vid with hsame | ⟨-,hbumped | ⟨hseq,bump,held,ret,hpc,hheld,hdue,hbelow⟩⟩
    · refine .inr ⟨hsame.seq,.exact (hsame.present.mpr present) ?_⟩
      intro w
      rw [neighbours,hsame.adjacent]
    · exact .inl hbumped
    · refine .inr ⟨hseq,.pending t bump held ret hpc hheld hdue ?_⟩
      intro w hw hlt
      rcases (neighbours w).mp hw with rfl | hadj
      · exact absurd hlt (lt_irrefl _)
      · exact hbelow w hadj hlt
  | pending u bump held ret here holds due below =>
    by_cases hut : u = t
    · subst hut
      rcases hm.keeps bump held ret vid here holds due with hbumped | ⟨hsame,held',hpc,hheld,hstay⟩
      · exact .inl hbumped
      · refine .inr ⟨hsame.seq,.pending u bump held' ret hpc hheld (due.same hsame) ?_⟩
        intro w hw hlt
        rcases below w hw hlt with hadj | hin
        · exact .inl ((hsame.adjacent w).mpr hadj)
        · exact .inr (hstay w hin hlt)
    · -- another thread has the lock, so thread `t` cannot touch the vertex
      have hlock : s.lock vid = some u := (hlocks vid u).mpr (by rw [here]; exact holds)
      rcases hm.effect vid with hsame | ⟨hmine,-⟩
      · refine .inr ⟨hsame.seq,.pending u bump held ret ?_ holds (due.same hsame) ?_⟩
        · rw [hm.others u hut]
          exact here
        · exact fun w hw hlt => (below w hw hlt).imp_left (hsame.adjacent w).mpr
      · exact absurd (Option.some.inj (hlock.symm.trans hmine)) hut

theorem Tracks.moves (h : Tracks s vid seq vertices d) (hm : Moves s s' t)
    (hlocks : ∀ v t, s.lock v = some t ↔ v ∈ (s.pc t).held) :
    ∃ d, Tracks s' vid seq vertices d := by
  have hbump : Bumped s s' vid → Tracks s' vid seq vertices (d + 1) := by
    intro hb
    refine ⟨h.small,(Nat.succ_le_succ h.count).trans hb.2,?_,fun he => by cases he⟩
    rw [hb.1,h.seq]
    omega
  by_cases hd : d = 0
  · rcases (h.fresh hd).moves hm hlocks with hb | ⟨hseq,hfresh⟩
    · exact ⟨_,hbump hb⟩
    · exact ⟨d,h.small,h.count.trans hm.incs,hseq.trans h.seq,fun _ => hfresh⟩
  · rcases hm.effect vid with hsame | ⟨-,hb | ⟨hseq,-⟩⟩
    · exact ⟨d,h.small,h.count.trans hm.incs,hsame.seq.trans h.seq,fun he => absurd he hd⟩
    · exact ⟨_,hbump hb⟩
    · exact ⟨d,h.small,h.count.trans hm.incs,hseq.trans h.seq,fun he => absurd he hd⟩

theorem Pc.Inv.moves {pc : Pc} (h : pc.Inv s) (hm : Moves s s' t)
    (hlocks : ∀ v t, s.lock v = some t ↔ v ∈ (s.pc t).held) : pc.Inv s' := by
  cases pc with
  | validating =>
    obtain ⟨hsorted,hvid,d,htracks⟩ := h
    exact ⟨hsorted,hvid,htracks.moves hm hlocks⟩
  | idle | acquiring | restarting | releasing => exact h

theorem moves_quiet (hgraph : s'.graph = s.graph) (hincs : s'.incs = s.incs)
    (hothers : ∀ u, u ≠ t → s'.pc u = s.pc u)
    (hpc : ∀ bump held ret, s.pc t = .releasing bump held ret → held = []) : Moves s s' t where
  incs := hincs.ge
  others := hothers
  effect := fun v => .inl (hgraph ▸ .refl _ v)
  keeps := by
    intro bump held ret v h hv
    rw [hpc bump held ret h] at hv
    cases hv

section Changes
variable {drop : Edge → Prop} {add : Relation → Prop} {r : Relation}

theorem changed_has (h : Changed g drop add g') (u w : Nat) :
    hasRelation (source g' u) (u,w) = true ↔
      hasRelation (source g u) (u,w) = true ∧ ¬drop (u,w) ∨ ∃ r, add r ∧ r.edge = (u,w) := by
  simp only [hasRelation_iff,h.sources]
  constructor
  · rintro ⟨r,⟨hr,hd⟩ | ⟨hadd,he,-⟩⟩
    · exact .inl ⟨⟨r,hr⟩,hd⟩
    · exact .inr ⟨r,hadd,he.symm⟩
  · rintro (⟨⟨r,hr⟩,hd⟩ | ⟨r,hadd,he⟩)
    · exact ⟨r,.inl ⟨hr,hd⟩⟩
    · exact ⟨r,.inr ⟨hadd,he.symm,(congrArg Prod.fst he).symm⟩⟩

theorem changed_adjacent (h : Changed g drop add g') (hdrop : ¬drop (v,w) ∧ ¬drop (w,v))
    (hadd : ∀ r, add r → r.edge ≠ (v,w) ∧ r.edge ≠ (w,v)) :
    Adjacent g' v w ↔ Adjacent g v w := by
  have hnone : ∀ e, (∀ r, add r → r.edge ≠ e) → ¬∃ r, add r ∧ r.edge = e := by
    rintro e hne ⟨r,hr,he⟩
    exact hne r hr he
  rw [Adjacent,Adjacent,changed_has h,changed_has h,
    or_iff_left (hnone _ fun r hr => (hadd r hr).1),or_iff_left (hnone _ fun r hr => (hadd r hr).2),
    and_iff_left hdrop.1,and_iff_left hdrop.2]

theorem changed_grows (h : Changed g (fun _ => False) add g') (ha : Adjacent g v w) :
    Adjacent g' v w :=
  ha.imp (fun h' => (changed_has h v w).mpr (.inl ⟨h',not_false⟩))
    fun h' => (changed_has h w v).mpr (.inl ⟨h',not_false⟩)

end Changes

/-- What the body of a call does to the graph, under the locks `held`, when the number of
increments goes from `i` to `i'`. -/
structure Works (g g' : Graph) (held : List Nat) (bump : Bump) (i i' : Nat) : Prop where
  sound : Sound g'
  small : ∀ v, g'.vertexSeqs v < 2 ^ 32
  range : ∀ v, g'.Present v → g.Present v ∨ v ∈ held
  incs : i ≤ i'
  effect : ∀ v, Same g g' v ∨ v ∈ held ∧
    (g'.vertexSeqs v = (g.vertexSeqs v + 1) % 2 ^ 32 ∧ i + 1 ≤ i' ∨
      g'.vertexSeqs v = g.vertexSeqs v ∧ Due g' bump v ∧
        ∀ w, Adjacent g v w → w < v → Adjacent g' v w ∨ w ∈ held)

theorem works_unchanged (hs : Sound g) (hsmall : ∀ v, g.vertexSeqs v < 2 ^ 32) (held : List Nat)
    (bump : Bump) (i : Nat) : Works g g held bump i i :=
  ⟨hs,hsmall,fun _ hp => .inl hp,le_rfl,fun v => .inl (.refl g v)⟩

theorem inc_seq_small (hsmall : ∀ v, g.vertexSeqs v < 2 ^ 32) (x v : Nat) :
    (incSeq g x).vertexSeqs v < 2 ^ 32 := by
  simp only [incSeq]
  by_cases hv : v = x
  · subst hv
    rw [update_self]
    exact Nat.mod_lt _ (by omega)
  · rw [update_of_ne hv]
    exact hsmall v

theorem works_ends {src dest i : Nat} {drop : Edge → Prop} {add : Relation → Prop} (hs : Sound g)
    (hsmall : ∀ v, g.vertexSeqs v < 2 ^ 32) (hne : src ≠ dest)
    (hheld : ∀ v, v ∈ held ↔ v = src ∨ v = dest) (hchanged : Changed g drop add g')
    (hdrop : ∀ e, drop e → e = (src,dest)) (hadd : ∀ r, add r → r.edge = (src,dest))
    (hshape : Shape g g') (hseqs : g'.vertexSeqs = (incSeq (incSeq g src) dest).vertexSeqs) :
    Works g g' held bump i (i + 2) := by
  refine ⟨hchanged.sound hs ?_,?_,fun v hp => .inl (hshape.present.mp hp),by omega,?_⟩
  · intro r hr he
    have hedge := hadd r hr
    exact hne ((congrArg Prod.fst hedge).symm.trans (he.trans (congrArg Prod.snd hedge)))
  · intro v
    rw [hseqs]
    exact inc_seq_small (inc_seq_small hsmall src) dest v
  · intro v
    by_cases hv : v = src ∨ v = dest
    · refine .inr ⟨(hheld v).mpr hv,.inl ⟨?_,by omega⟩⟩
      rw [hseqs]
      rcases hv with rfl | rfl
      · simp [incSeq,update_of_ne hne]
      · simp [incSeq,update_of_ne hne.symm]
    · obtain ⟨hsrc,hdest⟩ := not_or.mp hv
      refine .inl ⟨?_,hshape.present,?_⟩
      · rw [hseqs]
        simp [incSeq,update_of_ne hsrc,update_of_ne hdest]
      · intro w
        have hother : (v,w) ≠ (src,dest) ∧ (w,v) ≠ (src,dest) :=
          ⟨fun he => hsrc (congrArg Prod.fst he),fun he => hdest (congrArg Prod.snd he)⟩
        exact changed_adjacent hchanged
          ⟨fun h => hother.1 (hdrop _ h),fun h => hother.2 (hdrop _ h)⟩
          fun r hr => ⟨fun he => hother.1 (he.symm.trans (hadd r hr)),
            fun he => hother.2 (he.symm.trans (hadd r hr))⟩

theorem mem_ordered {src dest : Nat} : v ∈ ordered src dest ↔ v = src ∨ v = dest := by
  unfold ordered
  split <;> simp [or_comm]

theorem works_add_edge {r : Relation} {i : Nat} (hs : Sound g)
    (hsmall : ∀ v, g.vertexSeqs v < 2 ^ 32) (hne : r.src ≠ r.dest)
    (hheld : held.reverse = ordered r.src r.dest) :
    ∃ g' ret, addEdge g r = .ok (g',ret) ∧ Works g g' held .never i (if ret then i + 2 else i) := by
  rcases add_edge_spec (r := r) hs with ⟨hok,-⟩ | ⟨g',hok,-,-,hchanged,hshape,-,hseqs⟩
  · exact ⟨g,false,hok,works_unchanged hs hsmall held _ i⟩
  · refine ⟨g',true,hok,works_ends hs hsmall hne ?_ hchanged (fun _ h => h.elim) ?_ hshape hseqs⟩
    · intro v
      rw [← mem_reverse,hheld,mem_ordered]
    · rintro r' rfl
      rfl

theorem works_remove_edge {src dest i : Nat} (hs : Sound g)
    (hsmall : ∀ v, g.vertexSeqs v < 2 ^ 32) (hne : src ≠ dest)
    (hheld : held.reverse = ordered src dest) :
    ∃ g' ret, removeEdge g src dest = .ok (g',ret) ∧
      Works g g' held .never i (if ret.isSome then i + 2 else i) := by
  rcases remove_edge_spec hs src dest with hok | ⟨g',r,hok,-,hchanged,hshape,hseqs⟩
  · exact ⟨g,none,hok,works_unchanged hs hsmall held _ i⟩
  · refine ⟨g',some r,hok,works_ends hs hsmall hne ?_ hchanged (fun _ h => h) (fun _ h => h.elim)
      hshape hseqs⟩
    intro v
    rw [← mem_reverse,hheld,mem_ordered]

theorem works_add_vertex {samples : List Nat} (i : Nat) (hs : Sound g)
    (hsmall : ∀ v, g.vertexSeqs v < 2 ^ 32) (payload : Addr) (addrs : Nat → Addr)
    (hheld : held.reverse = sampled vid samples) :
    Works g (addVertex g vid payload (sampled vid samples) addrs).1 held (.ifPresent vid) i i := by
  by_cases hvid : g.Present vid
  · rw [addVertex,if_pos hvid]
    exact works_unchanged hs hsmall held _ i
  have hmem : ∀ v, v ∈ held ↔ v ∈ sampled vid samples := fun v => by rw [← hheld,mem_reverse]
  have hnodup : (sampled vid samples).Nodup := (sort_unique_sorted _).imp ne_of_lt
  obtain ⟨g',hok,hchanged,hshape,hseqs⟩ := add_vertex_spec hs hvid hnodup payload addrs
  have hpresent : ∀ v, g'.Present v ↔ v = vid ∨ g.Present v :=
    fun v => hshape.present.trans (present_fresh payload)
  have hvidIn : vid ∈ held := (hmem vid).mpr (by simp [sampled,mem_sort_unique])
  have hbefore : ∀ w, ¬Adjacent g vid w := by
    rintro w (h | h)
    · obtain ⟨r,hr⟩ := hasRelation_iff.mp h
      exact hvid (present_of_source hr)
    · obtain ⟨r,hr⟩ := hasRelation_iff.mp h
      exact hvid (present_of_destination ((hs.mirror (w,vid) r).mp hr))
  rw [hok]
  refine ⟨hchanged.sound hs ?_,fun v => hseqs ▸ hsmall v,?_,le_rfl,?_⟩
  · rintro r ⟨u,-,hu,rfl⟩ (rfl : vid = u)
    exact hvid hu
  · intro v hp
    rcases (hpresent v).mp hp with rfl | hp
    · exact .inr hvidIn
    · exact .inl hp
  · intro v
    by_cases hv : v = vid
    · subst hv
      refine .inr ⟨hvidIn,.inr ⟨by rw [hseqs],.inr ⟨v,rfl,(hpresent v).mpr (.inl rfl),.inl rfl⟩,?_⟩⟩
      intro w hw
      exact absurd hw (hbefore w)
    · by_cases hnew : v ∈ held ∧ g.Present v
      · obtain ⟨hin,hp⟩ := hnew
        have hedge : Adjacent g' v vid :=
          .inr ((changed_has hchanged vid v).mpr (.inr ⟨_,⟨v,(hmem v).mp hin,hp,rfl⟩,rfl⟩))
        exact .inr ⟨hin,.inr ⟨by rw [hseqs],
          .inr ⟨vid,rfl,(hpresent v).mpr (.inr hp),.inr hedge⟩,
          fun w hw _ => .inl (changed_grows hchanged hw)⟩⟩
      · refine .inl ⟨by rw [hseqs],(hpresent v).trans (or_iff_right hv),?_⟩
        intro w
        refine changed_adjacent hchanged ⟨not_false,not_false⟩ ?_
        rintro r ⟨u,hu,hp,rfl⟩
        refine ⟨fun he => hv (congrArg Prod.fst he).symm,fun he => ?_⟩
        obtain rfl : u = v := congrArg Prod.snd he
        exact hnew ⟨(hmem u).mpr hu,hp⟩

theorem works_remove_vertex (i : Nat) (hs : Sound g) (hsmall : ∀ v, g.vertexSeqs v < 2 ^ 32)
    (hvid : g.Present vid) (hsorted : held.reverse.Pairwise (· < ·))
    (hheld : ∀ w, w ∈ held.reverse ↔ w = vid ∨ Adjacent g vid w) :
    ∃ g' rest, removeVertex g vid held.reverse = .ok (g',rest) ∧ Works g g' held .always i i := by
  obtain ⟨g1,t,hok,-,hshape,hseqs,hchanged⟩ :=
    remove_vertex_spec hs hvid (hsorted.imp ne_of_lt) hheld
  have hmem : ∀ w, w ∈ held ↔ w = vid ∨ Adjacent g vid w := fun w => by
    rw [← mem_reverse,hheld]
  have hpresent : ∀ v ≠ vid, ((destroy g1 vid).Present v ↔ g.Present v) := by
    intro v hv
    rw [← hshape.present]
    simp [destroy,Graph.Present,update_of_ne hv]
  refine ⟨_,_,hok,hchanged.sound hs (by simp),fun v => ?_,?_,le_rfl,?_⟩
  · show g1.vertexSeqs v < _
    rw [hseqs]
    exact hsmall v
  · intro v hp
    by_cases hv : v = vid
    · exact .inr ((hmem v).mpr (.inl hv))
    · exact .inl ((hpresent v hv).mp hp)
  · intro v
    have hseq : (destroy g1 vid).vertexSeqs v = g.vertexSeqs v := congrFun hseqs v
    have hother : ∀ w, v ≠ vid → w ≠ vid → (Adjacent (destroy g1 vid) v w ↔ Adjacent g v w) := by
      intro w hv hw
      exact changed_adjacent hchanged ⟨by simp [At,hv,hw],by simp [At,hv,hw]⟩ (by simp)
    by_cases hin : v ∈ held
    · refine .inr ⟨hin,.inr ⟨hseq,.inl rfl,?_⟩⟩
      intro w hw _
      by_cases hv : v = vid
      · exact .inr ((hmem w).mpr (.inr (hv ▸ hw)))
      · by_cases hwv : w = vid
        · exact .inr ((hmem w).mpr (.inl hwv))
        · exact .inl ((hother w hv hwv).mpr hw)
    · obtain ⟨hv,hnot⟩ := not_or.mp fun h => hin ((hmem v).mpr h)
      refine .inl ⟨hseq,hpresent v hv,?_⟩
      intro w
      by_cases hw : w = vid
      · subst hw
        constructor
        · rintro (h | h) <;> rw [changed_has hchanged] at h <;> simp [At] at h
        · exact fun h => absurd h.symm hnot
      · exact hother w hv hw

section Holders
variable {lock : Nat → Option Nat} {pc : Nat → Pc} {pc' : Pc} {x : Nat}

section
variable (h : ∀ v u, lock v = some u ↔ v ∈ (pc u).held)
include h

theorem locks_goto (hheld : pc'.held = (pc t).held)
    (v u : Nat) : lock v = some u ↔ v ∈ (update pc t pc' u).held := by
  rw [h]
  by_cases hu : u = t
  · rw [hu,update_self,hheld]
  · rw [update_of_ne hu]

theorem locks_take (hfree : lock x = none) (hheld : pc'.held = x :: (pc t).held) (v u : Nat) :
    update lock x (some t) v = some u ↔ v ∈ (update pc t pc' u).held := by
  by_cases hu : u = t
  · subst hu
    rw [update_self,hheld,mem_cons,← h]
    by_cases hv : v = x
    · simp [hv]
    · simp [hv]
  · rw [update_of_ne hu,← h]
    by_cases hv : v = x
    · subst hv
      simp [hfree,Ne.symm hu]
    · rw [update_of_ne hv]

theorem locks_unlock (hx : x ∉ pc'.held) (hheld : (pc t).held = x :: pc'.held) (v u : Nat) :
    update lock x none v = some u ↔ v ∈ (update pc t pc' u).held := by
  have hmine : lock x = some t := (h x t).mpr (by simp [hheld])
  by_cases hu : u = t
  · subst hu
    rw [update_self]
    by_cases hv : v = x
    · subst hv
      simp [hx]
    · rw [update_of_ne hv,h,hheld,mem_cons,or_iff_right hv]
  · rw [update_of_ne hu,← h]
    by_cases hv : v = x
    · subst hv
      simp [hmine,Ne.symm hu]
    · rw [update_of_ne hv]

end

end Holders

theorem goto_others (s : State) (t : Nat) (pc : Pc) : ∀ u, u ≠ t → (s.goto t pc).pc u = s.pc u :=
  fun _ hu => update_of_ne hu _ _

theorem goto_here (s : State) (t : Nat) (pc : Pc) : (s.goto t pc).pc t = pc :=
  update_self ..

theorem ordered_sorted {src dest : Nat} (h : src ≠ dest) :
    (ordered src dest).Pairwise (· < ·) := by
  unfold ordered
  split <;> simp <;> omega

theorem call_locks_sorted (h : call.loops = false) : call.locks.Pairwise (· < ·) := by
  cases call with
  | addEdge | removeEdge => exact ordered_sorted (by simpa [Call.loops] using h)
  | hasEdge | removeVertex => exact pairwise_singleton _ _
  | addVertex => exact sort_unique_sorted _

theorem reverse_cons_append (x : Nat) (held todo : List Nat) :
    (x :: held).reverse ++ todo = held.reverse ++ x :: todo := by simp

theorem Tracks.current (h : Tracks s vid seq vertices d) (hincs : s.incs < 2 ^ 32)
    (hseq : s.graph.vertexSeqs vid = seq) : Fresh s vid vertices := by
  refine h.fresh ?_
  have hcount := h.count
  have hmod := h.seq
  have hsmall := h.small
  omega

theorem call_locks_range (h : call.InRange N) : ∀ v ∈ call.locks, v < N := by
  intro v hv
  cases call with
  | addEdge | removeEdge => rcases mem_ordered.mp hv with rfl | rfl; exacts [h.1,h.2]
  | hasEdge => exact mem_singleton.mp hv ▸ h.1
  | addVertex =>
    rcases mem_append.mp (mem_sort_unique.mp hv) with hv | hv
    · exact h.2 v hv
    · exact mem_singleton.mp hv ▸ h.1
  | removeVertex => exact mem_singleton.mp hv ▸ h

theorem start_inv (hs : Sound g) (hsmall : ∀ v, g.vertexSeqs v < 2 ^ 32)
    (hrange : ∀ v, g.Present v → v < N) : Inv N (start g) where
  intact := rfl
  sound := hs
  small := hsmall
  range := hrange
  locks := by simp [start,Pc.held]
  ids := by simp [start,Pc.ids]
  pcs := fun _ => trivial

def Pc.wants : Pc → Option Nat
  | .acquiring _ _ (v :: _) | .validating _ _ _ (v :: _) => some v
  | _ => none

section
variable (hi : Inv N s)
include hi

theorem Inv.at {pc : Pc} (hpc : s.pc t = pc) : pc.Inv s := hpc ▸ hi.pcs t

theorem Inv.holds {pc : Pc} (hpc : s.pc t = pc) (hv : v ∈ pc.held) : s.lock v = some t :=
  (hi.locks v t).mpr (hpc ▸ hv)

theorem Inv.moved {pc' : Pc} (hm : Moves s (s'.goto t pc') t)
    (hintact : s'.crashed = none) (hsound : Sound s'.graph)
    (hsmall : ∀ v, s'.graph.vertexSeqs v < 2 ^ 32) (hrange : ∀ v, s'.graph.Present v → v < N)
    (hlocks : ∀ v u, s'.lock v = some u ↔ v ∈ ((s'.goto t pc').pc u).held)
    (hids : ∀ v ∈ pc'.ids, v < N) (hpc : pc'.Inv (s'.goto t pc')) : Inv N (s'.goto t pc') where
  intact := hintact
  sound := hsound
  small := hsmall
  range := hrange
  locks := hlocks
  ids := by
    intro u
    by_cases hu : u = t
    · rwa [hu,goto_here]
    · rw [hm.others u hu]
      exact hi.ids u
  pcs := by
    intro u
    by_cases hu : u = t
    · rwa [hu,goto_here]
    · rw [hm.others u hu]
      exact (hi.pcs u).moves hm hi.locks

theorem Inv.works {i : Nat} (hheld : (s.pc t).held = held) (hsorted : held.reverse.Pairwise (· < ·))
    (hnot : ∀ bump held ret, s.pc t ≠ .releasing bump held ret)
    (hw : Works s.graph g' held bump s.incs i) (ret : Bool) :
    Inv N ({ s with graph := g', incs := i }.goto t (.releasing bump held ret)) := by
  have hrange : ∀ v ∈ held, v < N := fun v hv => hi.ids t v (Pc.held_ids (hheld ▸ hv))
  have hm : Moves s ({ s with graph := g', incs := i }.goto t (.releasing bump held ret)) t := by
    refine ⟨hw.incs,goto_others _ t _,?_,fun _ _ _ _ h => absurd h (hnot _ _ _)⟩
    intro v
    rcases hw.effect v with hsame | ⟨hv,heffect⟩
    · exact .inl hsame
    · refine .inr ⟨(hi.locks v t).mpr (hheld ▸ hv),heffect.imp_right ?_⟩
      rintro ⟨hseq,hdue,hbelow⟩
      exact ⟨hseq,bump,held,ret,goto_here _ t _,hv,hdue,hbelow⟩
  refine hi.moved hm hi.intact hw.sound hw.small ?_ (locks_goto hi.locks hheld.symm) hrange
    (pairwise_reverse.mp hsorted)
  intro v hp
  rcases hw.range v hp with hp | hv
  · exact hi.range v hp
  · exact hrange v hv

theorem Inv.collect (hpc : s.pc t = .acquiring (.removeVertex vid) held [])
    (hheld : held.reverse = [vid]) (hp : s.graph.Present vid) :
    Inv N ((s.unlock vid).goto t
      (.validating vid (s.graph.vertexSeqs vid) [] (neighbours s.graph vid))) := by
  obtain rfl : held = [vid] := by simpa using congrArg List.reverse hheld
  have hm : Moves s ((s.unlock vid).goto t
      (.validating vid (s.graph.vertexSeqs vid) [] (neighbours s.graph vid))) t :=
    moves_quiet rfl rfl (goto_others _ t _) (by simp [hpc])
  refine hi.moved hm hi.intact hi.sound hi.small hi.range
    (locks_unlock hi.locks not_mem_nil (congrArg Pc.held hpc)) ?_ ?_
  · intro w hw
    rcases (mem_neighbours hi.sound).mp (show w ∈ neighbours s.graph vid from hw) with rfl | hadj
    · exact hi.range w hp
    · exact hi.range w (hadj.present hi.sound)
  · refine ⟨sort_unique_sorted _,(mem_neighbours hi.sound).mpr (.inl rfl),0,hi.small vid,
      Nat.zero_le _,(Nat.mod_eq_of_lt (hi.small vid)).symm,fun _ => .exact hp ?_⟩
    exact fun w => mem_neighbours hi.sound

theorem Inv.body (hpc : s.pc t = .acquiring call held []) : Inv N (body s t held call) := by
  obtain ⟨hlocks,hloops⟩ := hi.at hpc
  rw [append_nil] at hlocks
  have hheld : (s.pc t).held = held := by rw [hpc]; rfl
  have hsorted : held.reverse.Pairwise (· < ·) := hlocks ▸ call_locks_sorted hloops
  have hnot : ∀ bump held ret, s.pc t ≠ .releasing bump held ret := by simp [hpc]
  cases call with
  | addEdge =>
    obtain ⟨g',ret,hok,hw⟩ := works_add_edge (i := s.incs) hi.sound hi.small
      (by simpa [Call.loops] using hloops) hlocks
    simp only [Locks.body,hok]
    exact hi.works hheld hsorted hnot hw ret
  | removeEdge =>
    obtain ⟨g',ret,hok,hw⟩ := works_remove_edge (i := s.incs) hi.sound hi.small
      (by simpa [Call.loops] using hloops) hlocks
    simp only [Locks.body,hok]
    exact hi.works hheld hsorted hnot hw ret.isSome
  | hasEdge =>
    exact hi.works hheld hsorted hnot (works_unchanged hi.sound hi.small held .never s.incs) _
  | addVertex _ _ payload addrs =>
    exact hi.works hheld hsorted hnot
      (works_add_vertex s.incs hi.sound hi.small payload addrs hlocks) _
  | removeVertex =>
    simp only [Locks.body]
    split
    next hp => exact hi.collect hpc hlocks hp
    next =>
      exact hi.works hheld hsorted hnot (works_unchanged hi.sound hi.small held .never s.incs) _

theorem Inv.take {pc' : Pc} (hfree : s.lock v = none)
    (hpc : ∀ bump held ret, s.pc t ≠ .releasing bump held ret)
    (hids : ∀ w ∈ pc'.ids, w ∈ (s.pc t).ids)
    (hheld : pc'.held = v :: (s.pc t).held)
    (hinv : Moves s ((s.take t v).goto t pc') t → pc'.Inv ((s.take t v).goto t pc')) :
    Inv N ((s.take t v).goto t pc') := by
  have hm : Moves s ((s.take t v).goto t pc') t :=
    moves_quiet rfl rfl (goto_others _ t _) fun _ _ _ h => absurd h (hpc _ _ _)
  exact hi.moved hm hi.intact hi.sound hi.small hi.range (locks_take hi.locks hfree hheld)
    (fun w hw => hi.ids t w (hids w hw)) (hinv hm)

omit hi in
/-- The vertices that are still to be locked exist, unless the sequence number has changed. -/
theorem Fresh.present (h : Fresh s vid (held.reverse ++ v :: todo)) (hi : Inv N s)
    (hpc : s.pc t = .validating vid seq held (v :: todo)) (hfree : s.lock v = none) :
    s.graph.Present v := by
  obtain ⟨hsorted,hvid,-⟩ := hi.at hpc
  cases h with
  | exact present neighbours =>
    rcases (neighbours v).mp (by simp) with rfl | hadj
    · exact present
    · exact hadj.present hi.sound
  | pending u _ _ _ here holds _ below =>
    have hlock : s.lock vid = some u := hi.holds here holds
    have hvid' : vid ∈ todo := by
      rcases mem_append.mp hvid with hin | hin
      · -- the lock cannot have two holders
        have hut : u = t :=
          Option.some.inj (hlock.symm.trans (hi.holds hpc (mem_reverse.mp hin)))
        rw [hut,hpc] at here
        cases here
      · rcases mem_cons.mp hin with rfl | hin
        · cases hfree.symm.trans hlock
        · exact hin
    have hlt : v < vid := by
      obtain ⟨-,htodo,-⟩ := pairwise_append.mp hsorted
      exact (pairwise_cons.mp htodo).1 vid hvid'
    rcases below v (by simp) hlt with hadj | hin
    · exact hadj.present hi.sound
    · cases hfree.symm.trans (hi.holds here hin)

omit hi in
theorem Fresh.exactly (h : Fresh s vid held.reverse) (hi : Inv N s)
    (hpc : s.pc t = .validating vid seq held []) :
    s.graph.Present vid ∧ ∀ w, w ∈ held.reverse ↔ w = vid ∨ Adjacent s.graph vid w := by
  obtain ⟨-,hvid,-⟩ := hi.at hpc
  rw [append_nil] at hvid
  cases h with
  | exact present neighbours => exact ⟨present,neighbours⟩
  | pending u _ _ _ here holds =>
    have hut : u = t := Option.some.inj
      ((hi.holds here holds).symm.trans (hi.holds hpc (mem_reverse.mp hvid)))
    rw [hut,hpc] at here
    cases here

theorem Inv.validate (hincs : s.incs < 2 ^ 32)
    (hpc : s.pc t = .validating vid seq held (v :: todo)) (hfree : s.lock v = none) :
    (¬s.graph.Present v → s.graph.vertexSeqs vid ≠ seq) ∧
      Inv N ((s.take t v).goto t (.validating vid seq (v :: held) todo)) := by
  obtain ⟨hsorted,hvid,d,htracks⟩ := hi.at hpc
  refine ⟨fun habsent hseq => habsent ((htracks.current hincs hseq).present hi hpc hfree),
    hi.take hfree (by simp [hpc]) ?_ (by rw [hpc]; rfl) ?_⟩
  · intro w hw
    rw [hpc]
    simp only [Pc.ids,mem_append,mem_cons] at hw ⊢
    tauto
  · intro hm
    obtain ⟨d',htracks'⟩ := htracks.moves hm hi.locks
    simp only [Pc.Inv,reverse_cons_append]
    exact ⟨hsorted,hvid,d',htracks'⟩

theorem Inv.remove (hincs : s.incs < 2 ^ 32)
    (hpc : s.pc t = .validating vid seq held []) (hseq : s.graph.vertexSeqs vid = seq) :
    ∃ g rest, removeVertex s.graph vid held.reverse = .ok (g,rest) ∧
      Inv N ({ s with graph := g }.goto t (.releasing .always held true)) := by
  obtain ⟨hsorted,-,d,htracks⟩ := hi.at hpc
  rw [append_nil] at hsorted htracks
  obtain ⟨hp,hheld⟩ := (htracks.current hincs hseq).exactly hi hpc
  obtain ⟨g,rest,hok,hw⟩ := works_remove_vertex s.incs hi.sound hi.small hp hsorted hheld
  exact ⟨g,rest,hok,hi.works (by rw [hpc]; rfl) hsorted (by simp [hpc]) hw true⟩

theorem Inv.restart (hpc : s.pc t = .restarting vid (v :: held)) :
    Inv N ((s.unlock v).goto t (.restarting vid held)) := by
  obtain ⟨hv,hsorted⟩ := pairwise_cons.mp (hi.at hpc)
  have hm : Moves s ((s.unlock v).goto t (.restarting vid held)) t :=
    moves_quiet rfl rfl (goto_others _ t _) (by simp [hpc])
  have hnot : v ∉ held := fun h => lt_irrefl v (hv v h)
  refine hi.moved hm hi.intact hi.sound hi.small hi.range
    (locks_unlock hi.locks hnot (congrArg Pc.held hpc)) (fun w hw => hi.ids t w ?_) hsorted
  rw [hpc]
  simp only [Pc.ids,mem_cons] at hw ⊢
  tauto

theorem Inv.release (hpc : s.pc t = .releasing bump (v :: held) ret) :
    Inv N (((if bump.applies s.graph v then s.incSeq v else s).unlock v).goto t
      (.releasing bump held ret)) := by
  obtain ⟨hv,hsorted⟩ := pairwise_cons.mp (hi.at hpc)
  have hnot : v ∉ held := fun h => lt_irrefl v (hv v h)
  have hmine : s.lock v = some t := hi.holds hpc mem_cons_self
  have hids : ∀ w ∈ held, w < N := by
    intro w hw
    refine hi.ids t w ?_
    rw [hpc]
    exact mem_cons_of_mem _ hw
  have hstay : ∀ w ∈ v :: held, w ≠ v → w ∈ held ∧ ∀ x ∈ v :: held, x < w → x ∈ held := by
    intro w hw hne
    have hin := (mem_cons.mp hw).resolve_left hne
    have hlt := hv w hin
    exact ⟨hin,fun x hx hxw => (mem_cons.mp hx).resolve_left (by omega)⟩
  split
  next =>
    have hsame : ∀ w ≠ v, Same s.graph (incSeq s.graph v) w :=
      fun w hw => ⟨update_of_ne hw _ _,.rfl,fun _ => .rfl⟩
    have hbumped : Bumped s (((s.incSeq v).unlock v).goto t (.releasing bump held ret)) v :=
      ⟨update_self ..,le_rfl⟩
    have hm : Moves s (((s.incSeq v).unlock v).goto t (.releasing bump held ret)) t := by
      refine ⟨Nat.le_succ _,goto_others _ t _,?_,?_⟩
      · intro w
        by_cases hw : w = v
        · exact .inr ⟨hw ▸ hmine,.inl (hw ▸ hbumped)⟩
        · exact .inl (hsame w hw)
      · intro bump' held' ret' w h hw _
        rw [hpc] at h
        cases h
        by_cases hwv : w = v
        · exact .inl (hwv ▸ hbumped)
        · exact .inr ⟨hsame w hwv,held,goto_here _ t _,hstay w hw hwv⟩
    refine hi.moved hm hi.intact ?_ (inc_seq_small hi.small v) hi.range
      (locks_unlock hi.locks hnot (congrArg Pc.held hpc)) hids hsorted
    exact ⟨hi.sound.sourceKeys,hi.sound.destinationKeys,hi.sound.sources,hi.sound.destinations,
      hi.sound.mirror⟩
  next happlies =>
    have hm : Moves s ((s.unlock v).goto t (.releasing bump held ret)) t := by
      refine ⟨le_rfl,goto_others _ t _,fun w => .inl (.refl _ w),?_⟩
      intro bump' held' ret' w h hw hdue
      rw [hpc] at h
      cases h
      have hwv : w ≠ v := by
        rintro rfl
        exact happlies (hdue.applies hi.sound)
      exact .inr ⟨.refl _ w,held,goto_here _ t _,hstay w hw hwv⟩
    exact hi.moved hm hi.intact hi.sound hi.small hi.range
      (locks_unlock hi.locks hnot (congrArg Pc.held hpc)) hids hsorted

theorem Inv.goto {pc' : Pc} (hpc : ∀ bump held ret, s.pc t = .releasing bump held ret → held = [])
    (hheld : pc'.held = (s.pc t).held) (hids : ∀ v ∈ pc'.ids, v < N)
    (hinv : pc'.Inv (s.goto t pc')) : Inv N (s.goto t pc') := by
  have hm : Moves s (s.goto t pc') t := moves_quiet rfl rfl (goto_others _ t _) hpc
  exact hi.moved hm hi.intact hi.sound hi.small hi.range (locks_goto hi.locks hheld) hids hinv

theorem next_inv (hincs : s.incs < 2 ^ 32) (h : next s t = some s') : Inv N s' := by
  unfold next at h
  split at h
  next => cases h
  next hpc =>
    cases h
    exact hi.body hpc
  next hpc =>
    split at h
    next hfree =>
      cases h
      refine hi.take hfree (by simp [hpc]) ?_ (by rw [hpc]; rfl) ?_
      · intro w hw
        rw [hpc]
        simp only [Pc.ids,mem_append,mem_cons] at hw ⊢
        tauto
      · intro _
        simpa only [Pc.Inv,reverse_cons_append] using hi.at hpc
    next => cases h
  next hpc =>
    split at h
    next hfree =>
      obtain ⟨hchanged,hnext⟩ := hi.validate hincs hpc hfree
      split at h
      next hbad => exact absurd hbad.2 (hchanged hbad.1)
      next =>
        cases h
        exact hnext
    next => cases h
  next hpc =>
    obtain ⟨hsorted,hvid,-⟩ := hi.at hpc
    rw [append_nil] at hsorted hvid
    split at h
    next =>
      cases h
      refine hi.goto (by simp [hpc]) (by rw [hpc]; rfl) ?_ (pairwise_reverse.mp hsorted)
      intro v hv
      refine hi.ids t v ?_
      rw [hpc]
      rcases mem_cons.mp hv with rfl | hv
      · exact mem_append_left _ (mem_reverse.mp hvid)
      · exact mem_append_left _ hv
    next hseq =>
      obtain ⟨g,rest,hok,hnext⟩ := hi.remove hincs hpc (not_not.mp hseq)
      rw [hok] at h
      cases h
      exact hnext
  next hpc =>
    cases h
    exact hi.restart hpc
  next hpc =>
    cases h
    refine hi.goto (by simp [hpc]) (by rw [hpc]; rfl) ?_ ⟨rfl,rfl⟩
    have hids := hi.ids t
    rw [hpc] at hids
    exact hids
  next hpc =>
    cases h
    exact hi.release hpc
  next hpc =>
    cases h
    exact hi.goto (by simp [hpc]) (by rw [hpc]; rfl) (by simp [Pc.ids]) trivial

theorem step_inv {act : Act} (hincs : s.incs < 2 ^ 32) (hrange : act.InRange N)
    (h : step s act = some s') : Inv N s' := by
  cases act with
  | next =>
    simp only [step] at h
    split at h
    next => exact next_inv hi hincs h
    next => cases h
  | invoke t =>
    simp only [step] at h
    split at h
    next hpc =>
      have hheld : (s.pc t).held = [] := by rw [hpc]; rfl
      split at h
      next =>
        cases h
        exact hi.goto (by simp [hpc]) hheld.symm (by simp [Pc.ids]) trivial
      next hloops =>
        cases h
        exact hi.goto (by simp [hpc]) hheld.symm (by simpa [Pc.ids] using call_locks_range hrange)
          ⟨rfl,by simpa using hloops⟩
    next => cases h

def Waits (s : State) (t u : Nat) : Prop := ∃ v, (s.pc t).wants = some v ∧ s.lock v = some u

/-- A thread in a call can move, or waits for a lock above those that it holds. -/
theorem Inv.moves_or_waits (hbusy : ∀ last, s.pc t ≠ .idle last) :
    (∃ s', next s t = some s') ∨ ∃ v u, (s.pc t).wants = some v ∧ s.lock v = some u ∧ v < N ∧
      ∀ w ∈ (s.pc t).held, w < v := by
  have hinv := hi.pcs t
  have hids := hi.ids t
  cases hpc : s.pc t with
  | idle last => exact absurd hpc (hbusy last)
  | acquiring _ _ todo =>
    rw [hpc] at hinv hids
    cases todo with
    | nil => exact .inl ⟨_,by rw [next,hpc]⟩
    | cons v =>
      cases hlock : s.lock v with
      | none => exact .inl ⟨_,by simp only [next,hpc,hlock,if_true]; rfl⟩
      | some u =>
        have hsorted := call_locks_sorted hinv.2
        rw [← hinv.1] at hsorted
        obtain ⟨-,-,hlt⟩ := pairwise_append.mp hsorted
        exact .inr ⟨v,u,rfl,hlock,hids v (by simp [Pc.ids]),
          fun w hw => hlt w (mem_reverse.mpr hw) v mem_cons_self⟩
  | validating _ _ _ todo =>
    rw [hpc] at hinv hids
    cases todo with
    | nil =>
      refine .inl ?_
      simp only [next,hpc]
      split
      next => exact ⟨_,rfl⟩
      next => split <;> exact ⟨_,rfl⟩
    | cons v =>
      cases hlock : s.lock v with
      | none =>
        refine .inl ?_
        simp only [next,hpc,hlock,if_true]
        split <;> exact ⟨_,rfl⟩
      | some u =>
        obtain ⟨-,-,hlt⟩ := pairwise_append.mp hinv.1
        exact .inr ⟨v,u,rfl,hlock,hids v (by simp [Pc.ids]),
          fun w hw => hlt w (mem_reverse.mpr hw) v mem_cons_self⟩
  | restarting _ held | releasing _ held =>
    cases held with
    | nil | cons => exact .inl ⟨_,by rw [next,hpc]⟩

/-- Whom a thread waits for can move in the end, since each of them wants a higher lock. -/
theorem Inv.unblocked (hbusy : ∀ last, s.pc t ≠ .idle last) :
    ∃ u, Relation.ReflTransGen (Waits s) t u ∧ ∃ s', next s u = some s' := by
  rcases hi.moves_or_waits hbusy with hmove | ⟨v,u,hwants,hlock,hv,-⟩
  · exact ⟨t,.refl,hmove⟩
  have hheld : v ∈ (s.pc u).held := (hi.locks v u).mp hlock
  suffices h : ∃ x, Relation.ReflTransGen (Waits s) u x ∧ ∃ s', next s x = some s' by
    obtain ⟨x,hx,hmove⟩ := h
    exact ⟨x,.head ⟨v,hwants,hlock⟩ hx,hmove⟩
  clear hwants hlock
  -- by induction on the number of locks above `v`
  obtain ⟨k,hk⟩ : ∃ k, N - v ≤ k := ⟨_,le_rfl⟩
  induction k generalizing u v with
  | zero => omega
  | succ k ih =>
    have hbusy' : ∀ last, s.pc u ≠ .idle last := by
      intro last hpc
      rw [hpc] at hheld
      cases hheld
    rcases hi.moves_or_waits hbusy' with hmove | ⟨v',u',hwants,hlock,hv',habove⟩
    · exact ⟨u,.refl,hmove⟩
    · have hlt := habove v hheld
      obtain ⟨x,hx,hmove⟩ := ih v' u' hv' ((hi.locks v' u').mp hlock) (by omega)
      exact ⟨x,.head ⟨v',hwants,hlock⟩ hx,hmove⟩

/-- The maps of the vertices agree, and nothing is stuck. -/
structure Integrity (s : State) : Prop where
  mirror : ∀ u v r, ((u,v),r) ∈ source s.graph u ↔ ((u,v),r) ∈ destination s.graph v
  edges : ∀ u v e r, (e,r) ∈ source s.graph u ∨ (e,r) ∈ destination s.graph v → r.edge = e ∧
    r.src ≠ r.dest ∧ s.graph.Present r.src ∧ s.graph.Present r.dest
  once : ∀ v, ((source s.graph v).map Prod.fst).Nodup ∧ ((destination s.graph v).map Prod.fst).Nodup
  intact : s.crashed = none
  live : ∀ t, (∀ last, s.pc t ≠ .idle last) →
    ∃ u, Relation.ReflTransGen (Waits s) t u ∧ ∃ s', step s (.next u) = some s'

theorem Inv.integrity : Integrity s where
  mirror := fun u v r => hi.sound.mirror (u,v) r
  edges := by
    intro u v e r h
    have hsource : (e,r) ∈ source s.graph e.1 := by
      rcases h with h | h
      · exact (hi.sound.sources u e r h).1 ▸ h
      · exact (hi.sound.mirror e r).mpr ((hi.sound.destinations v e r h) ▸ h)
    obtain ⟨-,hedge,hne⟩ := hi.sound.sources _ e r hsource
    subst hedge
    exact ⟨rfl,hne,present_of_source hsource,
      present_of_destination ((hi.sound.mirror r.edge r).mp hsource)⟩
  once := fun v => ⟨hi.sound.sourceKeys v,hi.sound.destinationKeys v⟩
  intact := hi.intact
  live := by
    intro t hbusy
    obtain ⟨u,hu,s',hs'⟩ := hi.unblocked hbusy
    exact ⟨u,hu,s',by simp only [step,hi.intact,if_true,hs']⟩

end

theorem next_incs (h : next s t = some s') : s.incs ≤ s'.incs := by
  unfold next at h
  split at h
  next => cases h
  next call held hpc =>
    cases h
    cases call with
    | addEdge | removeEdge =>
      simp only [body]
      split
      next => exact le_rfl
      next => simp only [State.goto]; split <;> omega
    | hasEdge | addVertex => exact le_rfl
    | removeVertex =>
      simp only [body]
      split <;> exact le_rfl
  next =>
    split at h <;> cases h
    exact le_rfl
  next =>
    split at h
    next => split at h <;> cases h <;> exact le_rfl
    next => cases h
  next =>
    split at h
    next => cases h; exact le_rfl
    next => split at h <;> cases h <;> exact le_rfl
  next => cases h; exact le_rfl
  next => cases h; exact le_rfl
  next =>
    cases h
    simp only [State.goto,State.unlock]
    split
    next => exact Nat.le_succ _
    next => exact le_rfl
  next => cases h; exact le_rfl

theorem step_incs {act : Act} (h : step s act = some s') : s.incs ≤ s'.incs := by
  cases act with
  | next =>
    simp only [step] at h
    split at h
    next => exact next_incs h
    next => cases h
  | invoke =>
    simp only [step] at h
    split at h
    next => split at h <;> cases h <;> exact le_rfl
    next => cases h

/-- Structural integrity under concurrency: from a sound graph, as long as no sequence number
can have come round. -/
theorem graph_integrity {ms : List (Move State Act)} (hs : Sound g)
    (hsmall : ∀ v, g.vertexSeqs v < 2 ^ 32) (hrange : ∀ v, g.Present v → v < N)
    (run : Run step (fun _ act => act.InRange N) (start g) ms s) (hincs : s.incs < 2 ^ 32) :
    Integrity s := by
  have hinv := run.invariant (fun s => s.incs < 2 ^ 32 → Inv N s)
    (fun _ => start_inv hs hsmall hrange) (by
      intro s act s' hi hact hstep hincs'
      have hle := step_incs hstep
      exact step_inv (hi (by omega)) (by omega) hact hstep)
  exact (hinv hincs).integrity

def rounds : List Act :=
  let vertex := replicate 4 (Act.next 0)
  let linked := replicate 6 (Act.next 1)
  [.invoke 0 (.addVertex 1 [] 10 fun _ => 0)] ++ vertex ++
    [.invoke 1 (.addVertex 2 [1] 11 fun _ => 20)] ++ linked ++
    [.invoke 0 (.removeVertex 1),.next 0,.next 0,.invoke 1 (.removeEdge 2 1)] ++ linked ++
    replicate 12 (.next 0)

def Pc.returned : Pc → Option Bool
  | .idle last => last
  | _ => none

theorem graph_integrity_rounds : ∃ ms s,
    Run step (fun _ act => act.InRange 4) (start ⟨fun _ => none,fun _ => 0⟩) ms s ∧
      ms.map (·.act) = rounds ∧ (s.pc 0).returned = some true ∧ ¬s.graph.Present 1 ∧
      Integrity s := by
  obtain ⟨s,hplay,hfacts⟩ : ∃ s, play step (start ⟨fun _ => none,fun _ => 0⟩) rounds = some s ∧
      ((s.pc 0).returned,decide (s.graph.Present 1),s.incs) = (some true,false,6) :=
    Option.map_eq_some_iff.mp (by decide +kernel)
  simp only [Prod.mk.injEq,decide_eq_false_iff_not] at hfacts
  obtain ⟨hreturned,habsent,hincs⟩ := hfacts
  obtain ⟨ms,run,hacts⟩ := Run.performed (fun _ act => act.InRange 4) hplay
    (by simp [rounds,Act.InRange,Call.InRange])
  refine ⟨ms,s,run,hacts,hreturned,habsent,graph_integrity ?_ ?_ ?_ run ?_⟩
  · refine ⟨?_,?_,?_,?_,?_⟩ <;> simp [source,destination]
  · simp
  · simp [Graph.Present]
  · omega

end Montage.MontageGraph.Locks
