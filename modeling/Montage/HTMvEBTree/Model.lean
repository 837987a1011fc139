import Mathlib.Algebra.Group.Nat.Defs
import Mathlib.Logic.Function.Basic

namespace Montage.HTMvEBTree
open Function

structure UniverseInfo where
  clusterSize : Nat
  nClusters : Nat
  lowBits : Nat
  highBits : Nat
  lowMask : Nat

/-- `divide_node`, where `log2`, `floor`, `ceil` and `pow` are exact. -/
def divideNode (u : Nat) : UniverseInfo :=
  let powers := Nat.log2 u
  let lowerPower := powers / 2
  let upperPower := (powers + 1) / 2
  let lowerRoot := 2 ^ lowerPower
  let upperRoot := 2 ^ upperPower
  ⟨lowerRoot,upperRoot,lowerPower,upperPower,lowerRoot - 1⟩

abbrev KMap := List (Nat × UniverseInfo)

def KMap.get (kMap : KMap) (u : Nat) : UniverseInfo := (kMap.lookup u).getD ⟨0,0,0,0,0⟩

/-- The fuel bounds the depth of the recursion. -/
def populateMaps : Nat → Nat → KMap → KMap
  | 0, _, kMap => kMap
  | fuel + 1, u, kMap =>
    let ui := divideNode u
    let kMap := if (kMap.lookup u).isSome then kMap else (u,ui) :: kMap
    if u > 2 then populateMaps fuel ui.clusterSize (populateMaps fuel ui.nClusters kMap) else kMap

/-- `HTMvEBTreeNode`. A node of universe 2 has neither summary nor clusters; `none` stands for
-1. -/
inductive Tree where
  | base (min max : Option Nat)
  | node (u : Nat) (min max : Option Nat) (summary : Tree) (clusters : Nat → Tree)

namespace Tree

def u : Tree → Nat
  | .base _ _ => 2
  | .node u _ _ _ _ => u

def min : Tree → Option Nat
  | .base min _ => min
  | .node _ min _ _ _ => min

def max : Tree → Option Nat
  | .base _ max => max
  | .node _ _ max _ _ => max

end Tree

def make (kMap : KMap) : Nat → Nat → Tree
  | 0, _ => .base none none
  | fuel + 1, u =>
    if u = 2 then .base none none
    else
      let ui := (kMap.lookup u).getD (divideNode u)
      .node u none none (make kMap fuel ui.nClusters) fun _ => make kMap fuel ui.clusterSize

def above (x : Nat) : Option Nat → Bool
  | none => true
  | some b => x > b

def below (x : Nat) : Option Nat → Bool
  | none => false
  | some a => x < a

def raise (x : Nat) (max : Option Nat) : Option Nat := if above x max then some x else max

namespace Tree

/-- `insertToEmptyVEB`. Fails outside of the universe. -/
def insertToEmptyVEB : Tree → Nat → Option Tree
  | .base _ _, x => if x < 2 then some (.base (some x) (some x)) else none
  | .node u _ _ summary clusters, x =>
    if x < u then some (.node u (some x) (some x) summary clusters) else none

/-- `insert`. Fails outside of the universe of the node or of its array of clusters; `junk` is what
the variable `inserted` holds before it is assigned. -/
def insert (kMap : KMap) (junk : Tree → Nat → Bool) : Tree → Nat → Option (Tree × Bool)
  | .base min max, x =>
    if x < 2 then
      if some x = min ∨ some x = max then some (.base min max,false)
      else
        match min with
        | none => some (.base (some x) (some x),true)
        | some a =>
          if x < a then some (.base (some x) (raise a max),true)
          else some (.base (some a) (raise x max),junk (.base min max) x)
    else none
  | .node u min max summary clusters, x =>
    if x < u then
      if some x = min ∨ some x = max then some (.node u min max summary clusters,false)
      else
        match min with
        | none => some (.node u (some x) (some x) summary clusters,true)
        | some a =>
          -- the smaller one stays here, and the other one goes on
          let newMin := if x < a then x else a
          let x := if x < a then a else x
          let ui := kMap.get u
          let h := x >>> ui.lowBits
          let l := x &&& ui.lowMask
          if h < ui.nClusters then
            if (clusters h).min = none then do
              let (summary,_) ← summary.insert kMap junk h
              let cluster ← (clusters h).insertToEmptyVEB l
              return (.node u (some newMin) (raise x max) summary
                (update clusters h cluster),true)
            else do
              let (cluster,inserted) ← (clusters h).insert kMap junk l
              return (.node u (some newMin) (raise x max) summary
                (update clusters h cluster),inserted)
          else none
    else none

/-- `INDEX(summary->min, clusters[summary->min]->min)`. -/
def second (ui : UniverseInfo) (summary : Tree) (clusters : Nat → Tree) : Option Nat := do
  let firstCluster ← summary.min
  let offset ← (clusters firstCluster).min
  return firstCluster * ui.clusterSize + offset

def maxOfOthers (ui : UniverseInfo) (x : Nat) (min max : Option Nat) (summary : Tree)
    (clusters : Nat → Tree) : Option (Option Nat) :=
  if some x = max then
    match summary.max with
    | none => some min
    | some summaryMax =>
      (clusters summaryMax).max.map fun m => some (summaryMax * ui.clusterSize + m)
  else some max

def maxOfCluster (ui : UniverseInfo) (x h : Nat) (max : Option Nat) (cluster : Tree) :
    Option (Option Nat) :=
  if some x = max then cluster.max.map fun m => some (h * ui.clusterSize + m) else some max

/-- `del`. Fails as `insert` does. -/
def del (kMap : KMap) : Tree → Nat → Option (Tree × Bool)
  | .base min max, x =>
    if x < 2 then
      if above x max || below x min then some (.base min max,false)
      else if min = max then
        if min = some x then some (.base none none,true) else some (.base min max,false)
      else some (.base (some (1 - x)) (some (1 - x)),true)
    else none
  | .node u min max summary clusters, x =>
    if x < u then
      if above x max || below x min then some (.node u min max summary clusters,false)
      else if min = max then
        if min = some x then some (.node u none none summary clusters,true)
        else some (.node u min max summary clusters,false)
      else
        let ui := kMap.get u
        -- the minimum is replaced by the next element, which is deleted from its cluster
        match if some x = min then second ui summary clusters else some x with
        | none => none
        | some x' =>
          let newMin := if some x = min then some x' else min
          let h := x' >>> ui.lowBits
          let l := x' &&& ui.lowMask
          if h < ui.nClusters then do
            let (cluster,erased) ← (clusters h).del kMap l
            let clusters := update clusters h cluster
            if cluster.min = none then do
              let (summary,_) ← summary.del kMap h
              let newMax ← maxOfOthers ui x' newMin max summary clusters
              return (.node u newMin newMax summary clusters,erased)
            else do
              let newMax ← maxOfCluster ui x' h max cluster
              return (.node u newMin newMax summary clusters,erased)
          else none
    else none

/-- Whether `insert` returns the variable `inserted` without having assigned it. -/
def unassigned (kMap : KMap) : Tree → Nat → Bool
  | .base min max, x => x = 1 ∧ min = some 0 ∧ max = some 0
  | .node u min max _ clusters, x =>
    if some x = min ∨ some x = max then false
    else
      match min with
      | none => false
      | some a =>
        let x := if x < a then a else x
        let ui := kMap.get u
        let cluster := clusters (x >>> ui.lowBits)
        if cluster.min = none then false else cluster.unassigned kMap (x &&& ui.lowMask)

end Tree

inductive Op where
  | insert (x : Nat)
  | del (x : Nat)

def Op.arg : Op → Nat
  | .insert x | .del x => x

def Tree.call (kMap : KMap) (junk : Tree → Nat → Bool) (t : Tree) : Op → Option (Tree × Bool)
  | .insert x => t.insert kMap junk x
  | .del x => t.del kMap x

end Montage.HTMvEBTree
