import ColumnStore.Proofs.AnyList

set_option autoImplicit false

/-!
Edits of a node of packed integers as edits of a list. Each of them keeps the node in memory and
the node the edit knows equal, wherever it moved.
-/
namespace ColumnStore.Node

open Store (Evolves)

structure Packed (s : Store) (n : Node) (vs : List Int64) : Prop where
  live : Live s n
  layout : n.head.layout = .bits
  list : n.toList s.memory = vs

/-- An edit left the list `vs` behind. -/
structure Edited (s : Store) (n : Node) (s' : Store) (n' : Node) (vs : List Int64) : Prop where
  packed : Packed s' n' vs
  evolves : Evolves s (n.region s.baseline) s' (n'.region s'.baseline)
  inner : n'.head.inner = n.head.inner
  refs : n'.head.hasRefs = n.head.hasRefs

variable {s s' s'' : Store} {n n' n'' : Node} {vs vs' vs'' : List Int64} {w : Nat}

theorem Packed.lists (packed : Packed s n vs) : Lists s n vs :=
  ⟨packed.live.held, packed.layout, packed.list⟩

theorem Packed.length (packed : Packed s n vs) : vs.length = n.size := packed.lists.length

theorem Packed.length_lt (packed : Packed s n vs) : vs.length < 2 ^ 24 :=
  packed.length ▸ packed.live.stored.size_lt

theorem Packed.get {i : Nat} (packed : Packed s n vs) (inside : i < vs.length) :
    n.get s.memory i = vs[i] := packed.lists.get inside

theorem Packed.edited (packed : Packed s n vs) : Edited s n s n vs :=
  ⟨packed, .refl packed.live.sound packed.live.owns, rfl, rfl⟩

theorem Edited.trans (first : Edited s n s' n' vs') (second : Edited s' n' s'' n'' vs'') :
    Edited s n s'' n'' vs'' :=
  ⟨second.packed, first.evolves.trans second.evolves, second.inner.trans first.inner,
    second.refs.trans first.refs⟩

/-- A list that the header can count is what the node in memory holds. -/
theorem Reached.edited (reached : Reached s n s' n' vs' w) (packed : Packed s n vs)
    (small : vs'.length < 2 ^ 24) : Edited s n s' n' vs' where
  packed :=
    { live := reached.lists.held.live (reached.regular packed.live.regular)
        (reached.lists.length ▸ small)
      layout := reached.lists.layout
      list := reached.lists.list }
  evolves := reached.evolves
  inner := reached.inner
  refs := reached.refs

theorem set_ok {i : Nat} {v : Int64} (packed : Packed s n vs) (inside : i < vs.length)
    (run : set i v (n, s) = (.ok (), (n', s'))) : Edited s n s' n' (vs.set i v) := by
  refine (set_lists packed.lists inside run).1.edited packed ?_
  rw [List.length_set]
  exact packed.length_lt

theorem insert_ok {i : Nat} {v : Int64} (packed : Packed s n vs) (inside : i ≤ vs.length)
    (small : vs.length + 1 < 2 ^ 24) (run : insert i v (n, s) = (.ok (), (n', s'))) :
    Edited s n s' n' (vs.insertIdx i v) := by
  refine (insert_lists packed.lists inside run).1.edited packed ?_
  rwa [List.length_insertIdx_of_le_length inside]

theorem add_ok {v : Int64} (packed : Packed s n vs) (small : vs.length + 1 < 2 ^ 24)
    (run : add v (n, s) = (.ok (), (n', s'))) : Edited s n s' n' (vs ++ [v]) := by
  refine (add_lists packed.lists run).1.edited packed ?_
  rwa [List.length_append]

theorem erase_ok {i : Nat} (packed : Packed s n vs) (inside : i < vs.length)
    (run : erase i (n, s) = (.ok (), (n', s'))) : Edited s n s' n' (vs.eraseIdx i) := by
  refine (erase_lists packed.lists inside run).1.edited packed ?_
  exact Nat.lt_of_le_of_lt (List.length_eraseIdx_le vs i) packed.length_lt

/-- An edit leaves the node above the image. -/
theorem add_mutable {v : Int64} (packed : Packed s n vs) (run : add v (n, s) = (.ok (), (n', s'))) :
    s'.baseline ≤ n'.ref := (add_lists packed.lists run).2

theorem erase_mutable {i : Nat} (packed : Packed s n vs) (inside : i < vs.length)
    (run : erase i (n, s) = (.ok (), (n', s'))) : s'.baseline ≤ n'.ref :=
  (erase_lists packed.lists inside run).2

theorem truncate_ok {size : Nat} (packed : Packed s n vs) (inside : size ≤ vs.length)
    (run : truncate size (n, s) = (.ok (), (n', s'))) : Edited s n s' n' (vs.take size) := by
  refine (truncate_lists packed.lists inside run).edited packed ?_
  exact Nat.lt_of_le_of_lt (List.length_take_le' size vs) packed.length_lt

theorem createPacked_ok {role : Role} (sound : s.Sound)
    (run : createPacked role s = (.ok n, s')) :
    Packed s' n [] ∧ s'.baseline ≤ n.ref ∧ n.head = Header.new role .bits 0 ∧
      Evolves s ∅ s' (n.region s'.baseline) := by
  obtain ⟨live, mutable, head, step⟩ := create_ok sound (by decide) run
  have size : n.size = 0 := by
    rw [Node.size, head]
    rfl
  refine ⟨⟨live, ?_, ?_⟩, mutable, head, step⟩
  · rw [head]
    rfl
  · rw [toList, size]
    rfl

theorem adjust_ok {i : Nat} {d : Int64} (packed : Packed s n vs) (inside : i < vs.length)
    (run : adjust i d (n, s) = (.ok (), (n', s'))) : Edited s n s' n' (vs.modify i (· + d)) := by
  refine (adjust_lists packed.lists inside run).1.edited packed ?_
  rw [List.length_modify]
  exact packed.length_lt

theorem adjustRange_ok {d : Int64} {start stop : Nat} (packed : Packed s n vs)
    (inside : stop ≤ vs.length) (run : adjustRange start stop d (n, s) = (.ok (), (n', s'))) :
    Edited s n s' n' (addBetween start stop d vs) := by
  refine (adjustRange_lists packed.lists inside run).edited packed ?_
  rw [addBetween, List.length_mapIdx]
  exact packed.length_lt

end ColumnStore.Node
