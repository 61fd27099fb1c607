import KairosFlux.Lib.Decimal
import KairosFlux.Lib.Runs
import KairosFlux.Lib.SortedMap

/-! The consistent hash ring (`cluster/routing.go`). A point of the ring belongs to the node that was
added last of those that hash to it. -/

namespace KairosFlux.Cluster

open Lib

/-- The hashes can be of any ordered type. -/
structure HashRing (Hash : Type) [LinearOrder Hash] where
  vnodes : Nat
  sortedHashes : List Hash
  hashToNode : SortedMap Hash Bytes
  nodes : List Bytes

def vnodeKey (node : Bytes) (i : Nat) : Bytes := node ++ [35] ++ decimal i

namespace HashRing

variable {Hash : Type} [LinearOrder Hash] (hashKey : Bytes → Hash) (r : HashRing Hash) (node key : Bytes)

def vnodeHashes : List Hash := (List.range r.vnodes).map fun i => hashKey (vnodeKey node i)

def addNodeLocked : HashRing Hash :=
  if node ∈ r.nodes then r
  else
    { r with
      nodes := r.nodes ++ [node]
      hashToNode := (r.vnodeHashes hashKey node).foldl (·.insert · node) r.hashToNode }

def rebuildLocked : HashRing Hash := { r with sortedHashes := r.hashToNode.entries.map Prod.fst }

def new (nodes : List Bytes) (vnodes : Int) : HashRing Hash :=
  (nodes.foldl (addNodeLocked hashKey)
    ⟨if vnodes ≤ 0 then 128 else vnodes.toNat, [], .empty, []⟩).rebuildLocked

def addNode : HashRing Hash :=
  let after := r.addNodeLocked hashKey node
  if after.nodes.length ≠ r.nodes.length then after.rebuildLocked else after

def removePoint (points : SortedMap Hash Bytes) (h : Hash) : SortedMap Hash Bytes :=
  if (points.lookup h).getD [] = node then points.erase h else points

def removeNode : HashRing Hash :=
  if node ∈ r.nodes then
    rebuildLocked
      { r with
        nodes := r.nodes.filter (· ≠ node)
        hashToNode := (r.vnodeHashes hashKey node).foldl (removePoint node) r.hashToNode }
  else r

/-- `sort.Search` finds the first hash that is not smaller. -/
def searchLocked (h : Hash) : Nat :=
  let idx := r.sortedHashes.findIdx (h ≤ ·)
  if idx = r.sortedHashes.length then 0 else idx

def nodeFor : Bytes :=
  if r.sortedHashes.length = 0 then []
  else (r.sortedHashes[r.searchLocked (hashKey key)]?.bind r.hashToNode.lookup).getD []

end HashRing

inductive RingCall
  | addNode (node : Bytes)
  | removeNode (node : Bytes)

variable {Hash : Type} [LinearOrder Hash] (hashKey : Bytes → Hash)

def RingCall.step (r : HashRing Hash) : RingCall → HashRing Hash
  | .addNode node => r.addNode hashKey node
  | .removeNode node => r.removeNode hashKey node

namespace HashRing

/-- Where a point stands on the ring, seen from a hash. -/
def place (h point : Hash) : Bool ×ₗ Hash := toLex (decide (point < h), point)

/-- The point that comes first belongs to the node; a ring without points has the empty name. -/
def Owner (points : SortedMap Hash Bytes) (h : Hash) (node : Bytes) : Prop :=
  (∀ point, points.lookup point = none) ∧ node = [] ∨
    ∃ point, points.lookup point = some node ∧
      ∀ other, points.lookup other ≠ none → place h point ≤ place h other

theorem Owner.unique {points : SortedMap Hash Bytes} {h : Hash} {first second : Bytes}
    (left : Owner points h first) (right : Owner points h second) : first = second := by
  rcases left with ⟨none, rfl⟩ | ⟨point, found, least⟩
  · rcases right with ⟨_, rfl⟩ | ⟨point, found, _⟩
    · rfl
    · simp [none] at found
  · rcases right with ⟨none, _⟩ | ⟨other, there, lowest⟩
    · simp [none] at found
    · have same := le_antisymm (least other (by simp [there])) (lowest point (by simp [found]))
      obtain rfl : point = other := congrArg Prod.snd (toLex.injective same)
      exact Option.some.inj (found.symm.trans there)

theorem search_first {hashes : List Hash} (sorted : hashes.Pairwise (· < ·)) (some : hashes ≠ [])
    (h : Hash) : ∃ point ∈ hashes, (∀ other ∈ hashes, place h point ≤ place h other) ∧
      hashes[if hashes.findIdx (h ≤ ·) = hashes.length then 0 else hashes.findIdx (h ≤ ·)]? =
        .some point := by
  by_cases last : hashes.findIdx (h ≤ ·) = hashes.length
  · obtain ⟨first, rest, rfl⟩ := List.exists_cons_of_ne_nil some
    have below : ∀ other ∈ first :: rest, other < h := by simpa using List.findIdx_eq_length.mp last
    refine ⟨first, .head _, fun other member => ?_, by rw [if_pos last]; rfl⟩
    have least : first ≤ other := by
      rcases List.mem_cons.mp member with rfl | later
      · exact le_rfl
      · exact (List.rel_of_pairwise_cons sorted later).le
    simp [place, Prod.Lex.toLex_le_toLex, below first (.head _), below other member, least]
  · have inside := lt_of_le_of_ne List.findIdx_le_length last
    have reached : h ≤ hashes[hashes.findIdx (h ≤ ·)] := by
      simpa using List.findIdx_getElem (w := inside)
    refine ⟨_, List.getElem_mem inside, fun other member => ?_, by simp [last, inside]⟩
    obtain ⟨j, bound, rfl⟩ := List.getElem_of_mem member
    rw [place, place, Prod.Lex.toLex_le_toLex]
    rcases lt_trichotomy j (hashes.findIdx (h ≤ ·)) with before | rfl | behind
    · have less : hashes[j] < h := by simpa using List.not_of_lt_findIdx before
      simp [less, reached.not_gt]
    · exact .inr ⟨rfl, le_rfl⟩
    · have less := List.pairwise_iff_getElem.mp sorted _ j inside bound behind
      simp [reached.not_gt, (reached.trans less.le).not_gt, less.le]

def Built (r : HashRing Hash) : Prop := r.sortedHashes = r.hashToNode.entries.map Prod.fst

variable {hashKey} {r : HashRing Hash}

theorem Built.owner (built : r.Built) (key : Bytes) :
    Owner r.hashToNode (hashKey key) (r.nodeFor hashKey key) := by
  have mem : ∀ point, point ∈ r.sortedHashes ↔ r.hashToNode.lookup point ≠ none := by
    intro point
    rw [built, Option.ne_none_iff_exists']
    simp [← SortedMap.mem_entries_iff]
  by_cases none : r.sortedHashes = []
  · simp only [none, List.not_mem_nil, false_iff, not_not] at mem
    exact .inl ⟨mem, by simp [nodeFor, none]⟩
  · have sorted : r.sortedHashes.Pairwise (· < ·) := by
      rw [built]
      exact List.pairwise_map.mpr r.hashToNode.sorted
    rcases search_first sorted none (hashKey key) with ⟨point, member, first, found⟩
    rcases Option.ne_none_iff_exists'.mp ((mem point).mp member) with ⟨node, owned⟩
    refine .inr ⟨point, ?_, fun other there => first other ((mem other).mpr there)⟩
    rw [nodeFor, if_neg (by simpa using none), searchLocked, found, Option.bind_some, owned]
    rfl

/-- The second map differs only in points of the node. -/
def Wider (node : Bytes) (few many : SortedMap Hash Bytes) : Prop :=
  ∀ point, many.lookup point = few.lookup point ∨ many.lookup point = some node

variable {node : Bytes} {few many more : SortedMap Hash Bytes}

theorem Wider.refl : Wider node few few := fun _ => .inl rfl

theorem Wider.trans (first : Wider node few many) (second : Wider node many more) :
    Wider node few more := by
  intro point
  rcases second point with same | new
  · rw [same]
    exact first point
  · exact .inr new

theorem wider_insert (h : Hash) : Wider node few (few.insert h node) := by
  intro point
  rw [SortedMap.lookup_insert]
  split_ifs <;> simp

theorem wider_removePoint (h : Hash) : Wider node (removePoint node few h) few := by
  intro point
  rw [removePoint]
  split_ifs with owned
  · rw [SortedMap.lookup_erase]
    split_ifs with same
    · subst same
      cases found : few.lookup point with
      | none => exact .inl rfl
      | some other => simp_all
    · exact .inl rfl
  · exact .inl rfl

variable (hashKey r node)

theorem wider_addNode : Wider node r.hashToNode (r.addNode hashKey node).hashToNode := by
  by_cases known : node ∈ r.nodes
  · simpa [addNode, addNodeLocked, known] using Wider.refl
  · simpa [addNode, addNodeLocked, known, rebuildLocked] using
      List.foldlRecOn (motive := Wider node r.hashToNode) _ _ .refl
        fun _ wider h _ => wider.trans (wider_insert h)

theorem wider_removeNode : Wider node (r.removeNode hashKey node).hashToNode r.hashToNode := by
  by_cases known : node ∈ r.nodes
  · simpa [removeNode, known, rebuildLocked] using
      List.foldlRecOn (motive := (Wider node · r.hashToNode)) _ _ .refl
        fun _ wider h _ => (wider_removePoint h).trans wider
  · simpa [removeNode, known] using Wider.refl

variable {hashKey r node}

theorem Built.step (call : RingCall) (built : r.Built) : (call.step hashKey r).Built := by
  cases call with
  | addNode node =>
    by_cases known : node ∈ r.nodes
    · simpa [RingCall.step, addNode, addNodeLocked, known] using built
    · simp [RingCall.step, addNode, addNodeLocked, known, Built, rebuildLocked]
  | removeNode node =>
    by_cases known : node ∈ r.nodes
    · simp [RingCall.step, removeNode, known, Built, rebuildLocked]
    · simpa [RingCall.step, removeNode, known] using built

/-- The first point of the wider ring is one of the node, or it is the first one of the other ring too. -/
theorem Built.nodeFor_wider {wide : HashRing Hash} (built : r.Built) (wideBuilt : wide.Built)
    (wider : Wider node r.hashToNode wide.hashToNode) (key : Bytes) :
    wide.nodeFor hashKey key = r.nodeFor hashKey key ∨ wide.nodeFor hashKey key = node := by
  have kept : ∀ point, r.hashToNode.lookup point ≠ none → wide.hashToNode.lookup point ≠ none := by
    intro point there
    rcases wider point with same | new
    · rwa [same]
    · simp [new]
  rcases wideBuilt.owner key with ⟨none, empty⟩ | ⟨point, found, first⟩
  · left
    refine empty ▸ (Owner.unique (built.owner key) (.inl ⟨fun point => ?_, rfl⟩)).symm
    exact of_not_not fun there => kept point there (none point)
  · rcases wider point with same | new
    · left
      refine ((built.owner key).unique (.inr ⟨point, same ▸ found, ?_⟩)).symm
      exact fun other there => first other (kept other there)
    · exact .inr (Option.some.inj (found.symm.trans new))

end HashRing

/-- Whatever the hash function, a node that is added takes keys only for itself, and keys of other nodes
than one that is removed stay where they are. -/
theorem ring_moves_minimum (nodes : List Bytes) (vnodes : Int) (calls : List RingCall)
    (node key : Bytes) :
    let r := run (RingCall.step hashKey) (.new hashKey nodes vnodes) calls
    ((r.addNode hashKey node).nodeFor hashKey key = r.nodeFor hashKey key ∨
        (r.addNode hashKey node).nodeFor hashKey key = node) ∧
      (r.nodeFor hashKey key ≠ node →
        (r.removeNode hashKey node).nodeFor hashKey key = r.nodeFor hashKey key) := by
  intro r
  have built : r.Built := run_invariant (fun _ call built => built.step call) _ _ rfl
  constructor
  · exact built.nodeFor_wider (built.step (.addNode node)) (r.wider_addNode hashKey node) key
  · intro other
    have removed : (r.removeNode hashKey node).Built := built.step (.removeNode node)
    have moved : r.nodeFor hashKey key = _ ∨ r.nodeFor hashKey key = node :=
      removed.nodeFor_wider built (r.wider_removeNode hashKey node) key
    exact (moved.resolve_right other).symm

end KairosFlux.Cluster
