import ColumnStore.Leaf.Blob
import ColumnStore.Proofs.Octets

set_option autoImplicit false

/-!
Blobs: whatever is inserted or erased, a range of bytes is replaced.
-/
namespace ColumnStore

namespace Node

variable {s s' : Store} {n n' : Node} {count width : Nat}

/-- An edit that made room did not ask for too much of it. -/
theorem reserve_fits (live : Live s n) (mutable : s.baseline ≤ n.ref)
    (run : reserve count width (n, s) = (.ok (), (n', s'))) :
    Header.bytesFor count width n.head.layout ≤ Header.maxCapacity := by
  obtain ⟨t, m, -, -, ⟨room, -, -⟩ | ⟨needed, _, _, _, same, -, small, -⟩⟩ := reserve_cases run
  · exact Nat.le_trans room (live.stored.capacity_le mutable)
  · exact same ▸ small

end Node

namespace Blob

open Node (octets)

variable {s s' : Store} {b b' : Blob} {bs : List UInt8} {R : Assertion} {start stop : Nat}
  {data : ByteArray} {m : Memory} {base : Nat} {own : Set Nat}

/-- The bytes of the blob. -/
def holds (b : Blob) (bs : List UInt8) : Assertion := octets .raw 1 b.node bs

theorem size_of_holds (h : (holds b bs).holds m base own) : b.node.size = bs.length :=
  (Node.length_of_octets h).symm

theorem create_holds (h : s.Holds R) (run : create s = (.ok b, s')) : s'.Holds (holds b [] * R) := by
  obtain ⟨n, made, rfl⟩ := StoreM.map_ok.mp run
  exact Node.create_octets (by decide) h made

/-- Room for `count` bytes: the node `g` is in memory, and the edit still knows the old size. -/
theorem grow_holds {n n' : Node} {count : Nat} (h : s.Holds (octets .raw 1 n bs * R))
    (mutable : s.baseline ≤ n.ref) (longer : bs.length < count)
    (run : Node.reserve count 1 (n, s) = (.ok (), (n', s'))) :
    ∃ g bs', s'.Holds (octets .raw 1 g bs' * R) ∧ s'.baseline ≤ g.ref ∧
      n' = ⟨g.ref, { g.head with size := n.size }⟩ ∧ bs'.length = count ∧
      bs'.take bs.length = bs := by
  obtain ⟨_, reads⟩ := h.reads
  have fits := Node.reserve_fits (Node.live_of_holds (h.imp_left Node.octets_entails)) mutable run
  rw [reads.2.2.1] at fits
  -- A size that passes the check of the capacity also fits the header.
  have small : count < 2 ^ 24 := by
    have whole : Header.length + Layout.raw.dataSize count 1 ≤ Header.bytesFor count 1 .raw :=
      Header.length_le_bytesFor ..
    simp only [Header.length, Layout.dataSize, Header.maxCapacity] at whole fits
    omega
  obtain ⟨g, h, mutable, same, resized⟩ := Node.reserve_octets h mutable small run
  refine ⟨g, _, h, mutable, ?_, Memory.length_octets .., ?_⟩
  · rw [resized.known, resized.head]
  · have within : bs.length ≤ Layout.raw.dataSize count 1 := Nat.le_of_lt longer
    rw [← Memory.octets_take _ within, Memory.octets_congr same]
    exact Node.list_of_octets reads

/-- With room for all of them, a range of the first `len` bytes is replaced and what follows them is
left out. -/
theorem splice_holds {g n n' : Node} {len count known : Nat} (h : s.Holds (octets .raw 1 g bs * R))
    (mutable : s.baseline ≤ g.ref) (knows : n = ⟨g.ref, { g.head with size := known }⟩)
    (ordered : start ≤ stop) (inside : stop ≤ len) (fewer : len ≤ bs.length)
    (total : len - (stop - start) + data.size = count) (room : count ≤ bs.length)
    (run : Node.reserve count 1 (n, s.withMemory ((s.memory.move (n.data + stop)
      (n.data + start + data.size) (len - stop)).write (n.data + start) data)) = (.ok (), (n', s'))) :
    s'.Holds (octets .raw 1 ⟨n'.ref, { n'.head with size := count }⟩
      ((bs.take len).take start ++ data.data.toList ++ (bs.take len).drop stop) * R) := by
  have place : n.data = g.data := by rw [knows]; rfl
  obtain ⟨_, reads⟩ := h.reads
  have list := Memory.octets_replace s.memory (p := g.data) data ordered inside
  rw [Memory.octets_take _ fewer, Node.list_of_octets reads, total] at list
  rw [place] at run
  generalize written : (s.memory.move (g.data + stop) (g.data + start + data.size) (len - stop)).write
    (g.data + start) data = m at list run
  -- The bytes are written while the header still says the old size.
  have h := Node.write_octets h mutable (m := m) (fun a there => by
    rw [← written, Memory.get_write, if_neg (by omega), Memory.get_move, if_neg (by omega)]) rfl
  have length : (Layout.raw.dataSize g.size 1) = bs.length := (Node.length_of_octets reads).symm
  have size : g.size = bs.length := length
  have stored := (Node.live_of_holds (h.imp_left Node.octets_entails)).stored
  have legal : g.head.layout = .raw ∧ g.width = 1 := ⟨reads.2.2.1, reads.2.2.2.1⟩
  have fits : Header.bytesFor count 1 g.head.layout ≤ g.capacity :=
    Nat.le_trans (Header.bytesFor_mono (le_of_le_of_eq room size.symm) (Nat.le_of_eq legal.2.symm) _)
      (stored.room mutable)
  have same : n.ref = g.ref ∧ n.head.layout = g.head.layout ∧ n.capacity = g.capacity := by
    rw [knows]; exact ⟨rfl, rfl, rfl⟩
  -- The edit works on a node with the old size, and the memory holds `g`: both reserve the same.
  rw [Node.reserve_room (by rw [same.2.1, same.2.2]; exact fits), same.1] at run
  have real := Node.reserve_room (s := s.withMemory m) fits
  injection run with _ result
  injection result with node store
  rw [store] at real
  have small : count < 2 ^ 24 := Nat.lt_of_le_of_lt (le_of_le_of_eq room size.symm) stored.size_lt
  obtain ⟨g', h, -, kept, resized⟩ := Node.reserve_octets h mutable small real
  have after : (⟨n'.ref, { n'.head with size := count }⟩ : Node) = g' := by
    rw [← resized.known_after, ← node, knows]
  have moved : s'.memory.octets g'.data (Layout.raw.dataSize count 1) = m.octets g.data count := by
    apply Memory.octets_congr
    intro k there
    have there : k < count := there
    exact kept k (by rw [Memory.length_octets]; omega)
  rw [after, ← list, ← moved]
  exact h

/-- The bytes from `start` to `stop` are replaced. -/
theorem replace_holds (h : s.Holds (holds b bs * R)) (ordered : start ≤ stop)
    (inside : stop ≤ bs.length) (run : replace start stop data (b, s) = (.ok (), (b', s'))) :
    s'.Holds (holds b' (bs.take start ++ data.data.toList ++ bs.drop stop) * R) := by
  obtain ⟨_, reads⟩ := h.reads
  have size : b.size = bs.length := size_of_holds reads
  simp only [replace, Edit.self_bind, size] at run
  obtain ⟨_, ⟨b₁, s₁⟩, copy, run⟩ := Edit.bind_ok.mp run
  obtain ⟨n₁, copy, rfl⟩ := Edit.focus_ok.mp copy
  obtain ⟨h, mutable, -⟩ := Node.copyOnWrite_octets h copy
  -- A longer blob reserves before it writes, a shorter one after.
  by_cases longer : bs.length < bs.length - (stop - start) + data.size
  · rw [if_pos longer] at run
    simp only [edit, Edit.self_bind, Edit.modifyMemory_bind, Edit.bind_ok, Edit.focus_ok] at run
    obtain ⟨_, ⟨b₂, s₂⟩, ⟨n₂, grow, rfl⟩, _, ⟨b₃, s₃⟩, ⟨n₃, keep, rfl⟩, n₄, resize, node⟩ := run
    cases resize
    obtain ⟨g, bs', h, mutable, knows, length, front⟩ := grow_holds h mutable longer grow
    have list := splice_holds h mutable knows ordered inside (by omega) rfl (Nat.le_of_eq length.symm) keep
    rw [front] at list
    cases node
    exact list
  · rw [if_neg longer] at run
    simp only [edit, Edit.self_bind, Edit.modifyMemory_bind, Edit.bind_ok, Edit.focus_ok] at run
    obtain ⟨_, ⟨b₃, s₃⟩, ⟨n₃, keep, rfl⟩, n₄, resize, node⟩ := run
    cases resize
    have list := splice_holds h mutable rfl ordered inside (Nat.le_refl _) rfl
      (Nat.le_of_not_lt longer) keep
    rw [List.take_length] at list
    cases node
    exact list

theorem truncate_holds {size : Nat} (h : s.Holds (holds b bs * R)) (inside : size ≤ bs.length)
    (run : truncate size (b, s) = (.ok (), (b', s'))) : s'.Holds (holds b' (bs.take size) * R) := by
  simp only [truncate, edit, Edit.focus_ok] at run
  obtain ⟨n, run, rfl⟩ := run
  obtain ⟨_, reads⟩ := h.reads
  exact (Node.truncate_octets h (by decide) (le_of_le_of_eq inside (size_of_holds reads).symm) run).1

theorem slice_of_holds (h : (holds b bs).holds m base own) (ordered : start ≤ stop)
    (inside : stop ≤ bs.length) :
    (b.slice m start stop).data.toList = (bs.drop start).take (stop - start) := by
  have within : start + (stop - start) ≤ bs.length := by rwa [Nat.add_sub_cancel' ordered]
  rw [slice, Memory.toList_read, Memory.octets_extract m within, Node.list_of_octets h]

end Blob

end ColumnStore
