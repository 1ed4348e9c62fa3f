import ColumnStore.Leaf.Scalar
import ColumnStore.Proofs.Copies
import ColumnStore.Proofs.Octets

set_option autoImplicit false

/-!
Leaves of floating point numbers: the bytes of a node are those of the values, one after the other.
-/
namespace ColumnStore

open Image (littleEndian)

/-- A value is read again from its bytes. -/
class LawfulScalar (α : Type) [Scalar α] : Prop where
  legal : Scalar.width α ∈ Width.legal
  positive : 0 < Scalar.width α
  small : Scalar.width α ≤ 8
  decode {w : UInt64} {v : α} :
    w.toNat = (Scalar.toWord v).toNat % 2 ^ (8 * Scalar.width α) → Scalar.ofWord w = v

instance : LawfulScalar Single where
  legal := by decide
  positive := by decide
  small := by decide
  decode {w v} same := by
    have low : v.bits.toUInt64.toNat < 2 ^ 32 := by simpa using v.bits.toNat_lt
    have same : w.toNat = v.bits.toUInt64.toNat := same.trans (Nat.mod_eq_of_lt low)
    show (⟨w.toUInt32⟩ : Single) = v
    rw [UInt64.toNat_inj.mp same, UInt32.toUInt32_toUInt64]

instance : LawfulScalar Double where
  legal := by decide
  positive := by decide
  small := by decide
  decode {w v} same := by
    exact congrArg Double.mk
      (UInt64.toNat_inj.mp (same.trans (Nat.mod_eq_of_lt v.bits.toNat_lt)))

namespace ScalarLeaf

open Node (octets)

variable {α : Type} [Scalar α] {s s' : Store} {l l' : ScalarLeaf α} {vs : List α} {R : Assertion}
  {m : Memory} {base : Nat} {own : Set Nat} {i : Nat} {v : α}

/-! ### The bytes of values -/

def encode (v : α) : List UInt8 := littleEndian (Scalar.width α) (Scalar.toWord v)

@[simp] theorem length_encode (v : α) : (encode v).length = Scalar.width α :=
  Image.length_littleEndian ..

theorem length_flatMap (vs : List α) : (vs.flatMap encode).length = vs.length * Scalar.width α := by
  induction vs with
  | nil => simp
  | cons v vs ih => simp [ih, Nat.succ_mul, Nat.add_comm]

theorem flatMap_take_drop {vs : List α} {i : Nat} (inside : i ≤ vs.length) :
    (vs.flatMap encode).take (i * Scalar.width α) = (vs.take i).flatMap encode ∧
      (vs.flatMap encode).drop (i * Scalar.width α) = (vs.drop i).flatMap encode := by
  have front : ((vs.take i).flatMap encode).length = i * Scalar.width α := by
    rw [length_flatMap, List.length_take_of_le inside]
  have split : vs.flatMap encode = (vs.take i).flatMap encode ++ (vs.drop i).flatMap encode := by
    rw [← List.flatMap_append, List.take_append_drop]
  rw [split]
  exact ⟨List.take_left' front, List.drop_left' front⟩

/-- Values `i` to `j` replaced by others are bytes replaced by others. -/
theorem flatMap_splice {vs : List α} {i j : Nat} (ws : List α) (ordered : i ≤ j)
    (inside : j ≤ vs.length) :
    (vs.flatMap encode).take (i * Scalar.width α) ++ ws.flatMap encode ++
        (vs.flatMap encode).drop (j * Scalar.width α) =
      (vs.take i ++ ws ++ vs.drop j).flatMap encode := by
  rw [(flatMap_take_drop (Nat.le_trans ordered inside)).1, (flatMap_take_drop inside).2]
  simp

/-! ### A leaf -/

/-- The bytes of `vs` in the node of the leaf. -/
def holds (l : ScalarLeaf α) (vs : List α) : Assertion :=
  octets .bytes (Scalar.width α) l.node (vs.flatMap encode)

section Read

variable [LawfulScalar α] (h : (holds l vs).holds m base own)
include h

theorem size_of_holds : l.size = vs.length := by
  have length := Node.length_of_octets h
  rw [length_flatMap] at length
  exact (Nat.eq_of_mul_eq_mul_right LawfulScalar.positive length).symm

theorem get_of_holds (inside : i < vs.length) : l.get m i = vs[i] := by
  have size := size_of_holds h
  obtain ⟨-, -, -, -, -, list⟩ := h
  have room : i * Scalar.width α + Scalar.width α ≤ l.node.size * Scalar.width α := by
    rw [← Nat.succ_mul]
    exact Nat.mul_le_mul_right _ (Nat.lt_of_lt_of_eq inside size.symm)
  have bytes : m.octets (l.slot i) (Scalar.width α) = encode vs[i] := by
    rw [slot, Memory.octets_extract m room]
    have list : m.octets l.node.data (l.node.size * Scalar.width α) = vs.flatMap encode := list
    rw [list, (flatMap_take_drop (Nat.le_of_lt inside)).2, List.drop_eq_getElem_cons inside,
      List.flatMap_cons, List.take_left' (length_encode vs[i])]
  exact LawfulScalar.decode (Memory.toNat_wordOf_octets LawfulScalar.small bytes)

end Read

instance [LawfulScalar α] : ListLeaf (ScalarLeaf α) where
  holds := holds
  load h := congrArg ScalarLeaf.mk h.2.1.load
  size := size_of_holds
  small h := size_of_holds h ▸ h.2.1.size_lt
  get := get_of_holds
  outer := Node.isInner_of_octets
  isRef h := h.2.1.isRef
  bound h := h.2.1.bound

/-! ### Edits -/

theorem create_holds [LawfulScalar α] (h : s.Holds R) (run : create s = (.ok l, s')) : s'.Holds (holds l [] * R) := by
  obtain ⟨n, made, rfl⟩ := StoreM.map_ok.mp run
  exact Node.create_octets LawfulScalar.legal h made

section Edits

variable (h : s.Holds (holds l vs * R))
include h

/-- A value is written over another one. -/
theorem store_holds (mutable : s.baseline ≤ l.node.ref) (inside : i < vs.length)
    (run : store i v (l, s) = (.ok (), (l', s'))) : s'.Holds (holds l' (vs.set i v) * R) := by
  simp only [store, slot, Edit.self_bind, Edit.modifyMemory_apply] at run
  injection run with _ result
  injection result with node written
  subst node
  obtain ⟨_, reads⟩ := h.reads
  have last : (i + 1) * Scalar.width α ≤ vs.length * Scalar.width α := Nat.mul_le_mul_right _ inside
  rw [Nat.succ_mul] at last
  have length := length_flatMap vs
  rw [← written]
  refine Node.write_octets h mutable (fun a there => Memory.get_setWordOf _ _ (by omega)) ?_
  rw [Memory.octets_put _ _ (by omega), Node.list_of_octets reads, ← Nat.succ_mul]
  have spliced := flatMap_splice [v] (Nat.le_succ i) inside
  rw [List.flatMap_singleton, List.append_assoc (vs.take i), List.singleton_append] at spliced
  rw [List.set_eq_take_append_cons_drop, if_pos inside]
  exact spliced

theorem set_holds (inside : i < vs.length) (run : set i v (l, s) = (.ok (), (l', s'))) :
    s'.Holds (holds l' (vs.set i v) * R) := by
  simp only [set, edit, Edit.bind_ok, Edit.focus_ok] at run
  obtain ⟨_, ⟨l₁, s₁⟩, ⟨n₁, copy, rfl⟩, put⟩ := run
  obtain ⟨h, mutable, -⟩ := Node.copyOnWrite_octets h copy
  exact store_holds h mutable inside put

variable [LawfulScalar α]

theorem insert_holds (inside : i ≤ vs.length) (small : vs.length + 1 < 2 ^ 24)
    (run : insert i v (l, s) = (.ok (), (l', s'))) :
    s'.Holds (holds l' (vs.insertIdx i v) * R) := by
  obtain ⟨_, reads⟩ := h.reads
  have size : l.node.size = vs.length := size_of_holds reads
  simp only [insert, edit, Edit.self_bind, Edit.bind_ok, Edit.focus_ok] at run
  obtain ⟨_, ⟨l₁, s₁⟩, ⟨n₁, copy, rfl⟩, _, ⟨l₂, s₂⟩, ⟨n₂, grow, rfl⟩, _, ⟨l₃, s₃⟩, moved, _, ⟨l₄, s₄⟩,
    ⟨n₄, resize, rfl⟩, put⟩ := run
  rw [Edit.modifyMemory_apply] at moved
  cases moved
  cases resize
  obtain ⟨h, mutable, -⟩ := Node.copyOnWrite_octets h copy
  obtain ⟨_, reads⟩ := h.reads
  rw [ScalarLeaf.size, size] at grow put
  obtain ⟨g, h, mutable, same, resized⟩ := Node.reserve_octets h mutable small grow
  have after := resized.known_after
  have place : n₂.data = g.data := by rw [← after]; rfl
  have known : ScalarLeaf.mk g = l' ∧ s₂.withMemory ((s₂.memory.move
      (g.data + i * Scalar.width α) (g.data + i * Scalar.width α + Scalar.width α)
      (vs.length * Scalar.width α - i * Scalar.width α)).setWordOf (g.data + i * Scalar.width α)
      (Scalar.toWord v) (Scalar.width α)) = s' := by
    simp only [store, Edit.self_bind, Edit.modifyMemory_apply] at put
    injection put with _ result
    injection result with node written
    rw [after] at node
    refine ⟨node, ?_⟩
    rw [← written, ← Nat.sub_mul, Nat.add_assoc, ← Nat.succ_mul, ← place]
    rfl
  obtain ⟨rfl, rfl⟩ := known
  have length := length_flatMap vs
  have before : i * Scalar.width α ≤ vs.length * Scalar.width α := Nat.mul_le_mul_right _ inside
  have whole : (vs.length + 1) * Scalar.width α = vs.length * Scalar.width α + Scalar.width α :=
    Nat.succ_mul ..
  have list : s₂.memory.octets g.data (vs.length * Scalar.width α) = vs.flatMap encode := by
    rw [← length, Memory.octets_congr same]
    exact Node.list_of_octets reads
  refine Node.write_octets h mutable (fun a there => ?_) ?_
  · rw [Memory.length_octets, Layout.dataSize, whole] at there
    rw [Memory.get_setWordOf _ _ (by omega), Memory.get_move, if_neg (by omega)]
  · rw [Memory.length_octets, Layout.dataSize, whole, Memory.octets_open _ _ before, list]
    have spliced := flatMap_splice [v] (Nat.le_refl i) inside
    rw [List.flatMap_singleton, List.append_assoc (vs.take i), List.singleton_append] at spliced
    have split := Branch.insertIdx_mid (vs.take i) (vs.drop i) v
    rw [List.take_append_drop, List.length_take_of_le inside] at split
    rw [split]
    exact spliced

theorem erase_holds (inside : i < vs.length) (run : erase i (l, s) = (.ok (), (l', s'))) :
    s'.Holds (holds l' (vs.eraseIdx i) * R) := by
  obtain ⟨_, reads⟩ := h.reads
  have size : l.node.size = vs.length := size_of_holds reads
  simp only [erase, edit, Edit.self_bind, Edit.bind_ok, Edit.focus_ok] at run
  obtain ⟨_, ⟨l₁, s₁⟩, ⟨n₁, copy, rfl⟩, _, ⟨l₂, s₂⟩, moved, _, ⟨l₃, s₃⟩, ⟨n₃, shrink, rfl⟩, n₄, resize, rfl⟩ := run
  rw [Edit.modifyMemory_apply] at moved
  cases moved
  cases resize
  obtain ⟨h, mutable, head⟩ := Node.copyOnWrite_octets h copy
  obtain ⟨_, reads⟩ := h.reads
  have size : n₁.size = vs.length := by rw [Node.size, head, ← size]
  have few : vs.length < 2 ^ 24 := by rw [← size]; exact reads.2.1.size_lt
  have length := length_flatMap vs
  have after : (i + 1) * Scalar.width α ≤ vs.length * Scalar.width α := Nat.mul_le_mul_right _ inside
  have before : i * Scalar.width α ≤ (i + 1) * Scalar.width α := Nat.mul_le_mul_right _ (Nat.le_succ i)
  have rest : (n₁.size - i - 1) * Scalar.width α =
      vs.length * Scalar.width α - (i + 1) * Scalar.width α := by
    rw [size, Nat.sub_sub, Nat.sub_mul]
  have fewer : (vs.length - 1) * Scalar.width α =
      vs.length * Scalar.width α - ((i + 1) * Scalar.width α - i * Scalar.width α) := by
    rw [← Nat.sub_mul, ← Nat.sub_mul, Nat.add_sub_cancel_left]
  simp only [slot, ScalarLeaf.size, rest] at shrink
  generalize moved : s₁.memory.move (n₁.data + (i + 1) * Scalar.width α) (n₁.data + i * Scalar.width α)
    (vs.length * Scalar.width α - (i + 1) * Scalar.width α) = m at shrink
  have h := Node.write_octets h mutable (m := m) (fun a there => by
    rw [← moved, Memory.get_move, if_neg (by omega)]) rfl
  rw [size] at shrink
  obtain ⟨g, h, -, same, resized⟩ := Node.reserve_octets h mutable (by omega) shrink
  have known := resized.known_after
  rw [← size] at known
  have list : s₃.memory.octets g.data ((vs.length - 1) * Scalar.width α) =
      (vs.eraseIdx i).flatMap encode := by
    rw [fewer, Memory.octets_congr (m := m) (p := n₁.data), ← moved, Memory.octets_close _ before after,
      ← length, Node.list_of_octets reads]
    · have spliced := flatMap_splice [] (Nat.le_succ i) inside
      rw [List.flatMap_nil, List.append_nil, List.append_nil] at spliced
      rw [List.eraseIdx_eq_take_drop_succ]
      exact spliced
    · intro k there
      exact same k (by rw [Memory.length_octets]; omega)
  have h := h.of_eq (congrArg (octets .bytes (Scalar.width α) g · * R) list)
  rw [← known] at h
  exact h

theorem truncate_holds {size : Nat} (inside : size ≤ vs.length)
    (run : truncate size (l, s) = (.ok (), (l', s'))) : s'.Holds (holds l' (vs.take size) * R) := by
  simp only [truncate, edit, Edit.focus_ok] at run
  obtain ⟨n, run, rfl⟩ := run
  obtain ⟨_, reads⟩ := h.reads
  obtain ⟨h, -⟩ := Node.truncate_octets h (by decide) (le_of_le_of_eq inside (size_of_holds reads).symm) run
  exact h.of_eq (congrArg (octets .bytes (Scalar.width α) n · * R) (flatMap_take_drop inside).1)

end Edits

theorem destroy_holds (h : s.Holds (holds l vs * R)) (run : l.node.destroy s = (.ok (), s')) :
    s'.Holds R := by
  injection run with _ store
  rw [← store]
  exact Node.destroy_holds (h.imp_left Node.octets_entails)

instance [LawfulScalar α] : LawfulLeaf (ScalarLeaf α) where
  owning l _ := Node.owning_octets .bytes _ l.node _
  create := create_holds
  set h inside run := set_holds h inside run
  insert h inside small run := insert_holds h inside small run
  erase h inside run := erase_holds h inside run
  truncate h inside run := truncate_holds h inside run
  destroy h run := destroy_holds h run

instance [LawfulScalar α] : PortableLeaf (ScalarLeaf α) where
  alike _ _ _ := Eq
  copy {l vs m m' _ _ _ r'} small h copy :=
    ⟨⟨.load m' r'⟩, vs, rfl, by rw [List.forall₂_eq_eq_eq], Node.octets_copy small (by decide) h copy⟩

end ScalarLeaf

end ColumnStore
