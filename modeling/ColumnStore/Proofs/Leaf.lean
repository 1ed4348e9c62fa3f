import ColumnStore.Leaf.Packed
import ColumnStore.Proofs.Nodes
import ColumnStore.Tree.Branch

set_option autoImplicit false

/-!
What the trees rely on: a leaf holds a list, is found again at its ref, and its edits are edits of
the list.
-/
namespace ColumnStore

/-- A leaf holds a list and is found again at its ref. -/
class ListLeaf (L : Type) {V : Type} [Leaf L V] where
  holds : L → List V → Assertion
  load {l : L} {vs : List V} {m : Memory} {base : Nat} {own : Set Nat} :
    (holds l vs).holds m base own → Leaf.load m (Leaf.ref l) = l
  size {l : L} {vs : List V} {m : Memory} {base : Nat} {own : Set Nat} :
    (holds l vs).holds m base own → Leaf.size l = vs.length
  small {l : L} {vs : List V} {m : Memory} {base : Nat} {own : Set Nat} :
    (holds l vs).holds m base own → vs.length < 2 ^ 24
  get {l : L} {vs : List V} {m : Memory} {base : Nat} {own : Set Nat} {i : Nat} :
    (holds l vs).holds m base own → (inside : i < vs.length) → Leaf.get m l i = vs[i]
  outer {l : L} {vs : List V} {m : Memory} {base : Nat} {own : Set Nat} :
    (holds l vs).holds m base own → Branch.isInner m (Leaf.ref l) = false
  isRef {l : L} {vs : List V} {m : Memory} {base : Nat} {own : Set Nat} :
    (holds l vs).holds m base own → Slot.isRef (Slot.ofRef (Leaf.ref l)) = true
  bound {l : L} {vs : List V} {m : Memory} {base : Nat} {own : Set Nat} :
    (holds l vs).holds m base own → Leaf.ref l < Store.addressSpace

open ListLeaf (holds)

/-- Its edits are edits of the list, and it is freed by itself if no value refers to a node. -/
class EditableLeaf (L : Type) {V : Type} [Leaf L V] extends ListLeaf L where
  Loose : V → Prop
  create {l : L} {s s' : Store} {R : Assertion} :
    s.Holds R → Leaf.create s = (.ok l, s') → s'.Holds (holds l [] * R)
  set {l l' : L} {vs : List V} {s s' : Store} {R : Assertion} {i : Nat} {v : V} :
    s.Holds (holds l vs * R) → i < vs.length → Leaf.set i v (l, s) = (.ok (), (l', s')) →
      s'.Holds (holds l' (vs.set i v) * R)
  insert {l l' : L} {vs : List V} {s s' : Store} {R : Assertion} {i : Nat} {v : V} :
    s.Holds (holds l vs * R) → i ≤ vs.length → vs.length + 1 < 2 ^ 24 →
      Leaf.insert i v (l, s) = (.ok (), (l', s')) → s'.Holds (holds l' (vs.insertIdx i v) * R)
  erase {l l' : L} {vs : List V} {s s' : Store} {R : Assertion} {i : Nat} :
    s.Holds (holds l vs * R) → i < vs.length → Leaf.erase i (l, s) = (.ok (), (l', s')) →
      s'.Holds (holds l' (vs.eraseIdx i) * R)
  truncate {l l' : L} {vs : List V} {s s' : Store} {R : Assertion} {size : Nat} :
    s.Holds (holds l vs * R) → size ≤ vs.length →
      Leaf.truncate size (l, s) = (.ok (), (l', s')) → s'.Holds (holds l' (vs.take size) * R)
  destroy {l : L} {vs : List V} {s s' : Store} {R : Assertion} :
    s.Holds (holds l vs * R) → (∀ v ∈ vs, Loose v) → Leaf.destroy l s = (.ok (), s') → s'.Holds R

/-- Its edits are edits of the list, and it owns its nodes. -/
class LawfulLeaf (L : Type) {V : Type} [Leaf L V] extends ListLeaf L where
  owning (l : L) (vs : List V) : Node.Owning (holds l vs) (Leaf.ref l)
  create {l : L} {s s' : Store} {R : Assertion} :
    s.Holds R → Leaf.create s = (.ok l, s') → s'.Holds (holds l [] * R)
  set {l l' : L} {vs : List V} {s s' : Store} {R : Assertion} {i : Nat} {v : V} :
    s.Holds (holds l vs * R) → i < vs.length → Leaf.set i v (l, s) = (.ok (), (l', s')) →
      s'.Holds (holds l' (vs.set i v) * R)
  insert {l l' : L} {vs : List V} {s s' : Store} {R : Assertion} {i : Nat} {v : V} :
    s.Holds (holds l vs * R) → i ≤ vs.length → vs.length + 1 < 2 ^ 24 →
      Leaf.insert i v (l, s) = (.ok (), (l', s')) → s'.Holds (holds l' (vs.insertIdx i v) * R)
  erase {l l' : L} {vs : List V} {s s' : Store} {R : Assertion} {i : Nat} :
    s.Holds (holds l vs * R) → i < vs.length → Leaf.erase i (l, s) = (.ok (), (l', s')) →
      s'.Holds (holds l' (vs.eraseIdx i) * R)
  truncate {l l' : L} {vs : List V} {s s' : Store} {R : Assertion} {size : Nat} :
    s.Holds (holds l vs * R) → size ≤ vs.length →
      Leaf.truncate size (l, s) = (.ok (), (l', s')) → s'.Holds (holds l' (vs.take size) * R)
  destroy {l : L} {vs : List V} {s s' : Store} {R : Assertion} :
    s.Holds (holds l vs * R) → Leaf.destroy l s = (.ok (), s') → s'.Holds R

/-- Whatever its values are, nothing is left of a leaf that owns its nodes. -/
instance LawfulLeaf.editable {L V : Type} [Leaf L V] [LawfulLeaf L] : EditableLeaf L where
  Loose _ := True
  create := LawfulLeaf.create
  set := LawfulLeaf.set
  insert := LawfulLeaf.insert
  erase := LawfulLeaf.erase
  truncate := LawfulLeaf.truncate
  destroy h _ run := LawfulLeaf.destroy h run

namespace Node

variable {s s' : Store} {n : Node} {vs : List Int64} {role : Role} {R : Assertion}
  {m : Memory} {base : Nat} {own : Set Nat}

theorem size_of_packed (h : (packed role n vs).holds m base own) : n.size = vs.length := by
  rw [← h.2.2.2.2, length_toList]

theorem get_of_packed {i : Nat} (h : (packed role n vs).holds m base own) (inside : i < vs.length) :
    n.get m i = vs[i] := by
  obtain ⟨-, -, -, -, rfl⟩ := h
  simp [toList]

theorem isInner_of_packed (h : (packed role n vs).holds m base own) :
    Branch.isInner m n.ref = decide (role = .inner) := by
  obtain ⟨-, stored, -, for_, -⟩ := h
  rw [Branch.isInner, stored.loaded, for_.1]

theorem destroyDeep_holds {A : Assertion} (owning : Owning A n.ref)
    (loaded : load s.memory n.ref = n) (h : s.Holds (A * R))
    (run : n.destroyDeep s = (.ok (), s')) : s'.Holds R := by
  apply destroyDeepRef_holds owning h
  rwa [destroyDeepRef, loadM, StoreM.read_bind, loaded]

theorem owning_plain (n : Node) (vs : List Int64) : Owning (packed .plain n vs) n.ref := by
  intro depth m base own h
  have none (k : Ref × Assertion) (inside : k ∈ []) : Owning k.2 k.1 := nomatch inside
  have alone (refs : n.hasRefs = true → childRefs vs = []) : Owning (packed .plain n vs * 1) n.ref :=
    owning_packed none refs
  refine alone ?_ depth m base own (by simpa using h)
  intro refs
  rw [hasRefs, h.2.2.2.1.2] at refs
  cases refs

instance : ListLeaf Node where
  holds := packed .plain
  load h := h.2.1.load
  size := size_of_packed
  small h := size_of_packed h ▸ h.2.1.size_lt
  get := get_of_packed
  outer := isInner_of_packed
  isRef h := h.2.1.isRef
  bound h := h.2.1.bound

instance : LawfulLeaf Node where
  owning l vs := owning_plain l vs
  create := createPacked_holds
  set h inside run := set_holds h inside run
  insert h inside small run := insert_holds h inside small run
  erase h inside run := erase_holds h inside run
  truncate h inside run := truncate_holds h inside run
  destroy h run := destroyDeep_holds (owning_plain _ _) (packed_of_holds h).live.stored.load h run

end Node

instance : ListLeaf RefLeaf where
  holds l := Node.packed .refs l.node
  load h := congrArg RefLeaf.mk h.2.1.load
  size := Node.size_of_packed
  small h := Node.size_of_packed h ▸ h.2.1.size_lt
  get := Node.get_of_packed
  outer := Node.isInner_of_packed
  isRef h := h.2.1.isRef
  bound h := h.2.1.bound

end ColumnStore
