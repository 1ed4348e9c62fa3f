import ColumnStore.Proofs.Frame
import ColumnStore.Proofs.Elements
import ColumnStore.Proofs.Nodes
import ColumnStore.Tree.Branch

set_option autoImplicit false

/-!
Nodes whose elements are whole bytes, as lists of bytes. Every edit of them replaces a range.
-/
namespace ColumnStore

namespace Memory

open Image (littleEndian)

/-- The `n` bytes from `p` on. -/
def octets (m : Memory) (p n : Nat) : List UInt8 := (List.range n).map fun k => m.get (p + k)

@[simp] theorem length_octets (m : Memory) (p n : Nat) : (m.octets p n).length = n := by
  simp [octets]

theorem octets_congr {m m' : Memory} {p p' n : Nat} (same : ∀ k, k < n → m'.get (p' + k) = m.get (p + k)) :
    m'.octets p' n = m.octets p n := by
  apply List.map_congr_left
  intro k inside
  exact same k (List.mem_range.mp inside)

theorem octets_add (m : Memory) (p a b : Nat) :
    m.octets p (a + b) = m.octets p a ++ m.octets (p + a) b := by
  simp [octets, List.range_add, Nat.add_assoc]

theorem octets_take (m : Memory) {p n k : Nat} (fewer : k ≤ n) :
    m.octets p k = (m.octets p n).take k := by
  obtain ⟨d, rfl⟩ := Nat.exists_eq_add_of_le fewer
  rw [octets_add, List.take_left' (length_octets m p k)]

theorem octets_drop (m : Memory) {p n k : Nat} (fewer : k ≤ n) :
    m.octets (p + k) (n - k) = (m.octets p n).drop k := by
  obtain ⟨d, rfl⟩ := Nat.exists_eq_add_of_le fewer
  rw [octets_add, List.drop_left' (length_octets m p k), Nat.add_sub_cancel_left]

theorem octets_extract (m : Memory) {p n k d : Nat} (inside : k + d ≤ n) :
    m.octets (p + k) d = ((m.octets p n).drop k).take d := by
  rw [← octets_drop m (Nat.le_of_add_right_le inside), ← octets_take]
  omega

theorem get_eq_of_octets {m m' : Memory} {p p' n k : Nat} (same : m'.octets p' n = m.octets p n)
    (inside : k < n) : m'.get (p' + k) = m.get (p + k) := by
  have here := congrArg (fun l => l[k]?) same
  simpa [octets, inside] using here

/-- Bytes `start` to `stop` replaced by others, and the bytes behind them moved. -/
theorem octets_splice (m m' : Memory) (p : Nat) (data : List UInt8) {start stop n : Nat}
    (within : stop ≤ n) (ordered : start ≤ stop)
    (front : ∀ k, k < start → m'.get (p + k) = m.get (p + k))
    (here : m'.octets (p + start) data.length = data)
    (back : ∀ k, k < n - stop → m'.get (p + start + data.length + k) = m.get (p + stop + k)) :
    m'.octets p (start + data.length + (n - stop)) =
      (m.octets p n).take start ++ data ++ (m.octets p n).drop stop := by
  rw [octets_add, octets_add, here, octets_congr front, octets_take m (Nat.le_trans ordered within),
    ← octets_drop m within, ← Nat.add_assoc, octets_congr back]

theorem octets_write (m : Memory) (p : Nat) (data : ByteArray) :
    (m.write p data).octets p data.size = data.data.toList := by
  apply List.ext_getElem (by simp)
  intro k inside _
  rw [length_octets] at inside
  simp only [octets, List.getElem_map, List.getElem_range, get_write]
  rw [if_pos (by omega), Nat.add_sub_cancel_left, get, dif_pos inside]
  rfl

theorem toList_read (m : Memory) (p n : Nat) : (m.read p n).data.toList = m.octets p n := by
  apply List.ext_getElem
  · rw [length_octets]
    exact Array.length_toList.trans (size_read m p n)
  intro k h inside
  rw [length_octets] at inside
  have same := get_read m p n k
  rw [if_pos inside, get, dif_pos (by rwa [size_read])] at same
  simp only [octets, List.getElem_map, List.getElem_range, Array.getElem_toList]
  exact same

/-! ### Words -/

theorem get_setWordOf (m : Memory) {p n i : Nat} (v : UInt64) (outside : i < p ∨ p + n ≤ i) :
    (m.setWordOf p v n).get i = m.get i := by
  induction n generalizing m p v with
  | zero => rfl
  | succ n ih =>
      rw [setWordOf, ih _ _ (by omega), get_set_ne _ _ _ _ (by omega)]

theorem octets_setWordOf (m : Memory) (p n : Nat) (v : UInt64) :
    (m.setWordOf p v n).octets p n = littleEndian n v := by
  induction n generalizing m p v with
  | zero => rfl
  | succ n ih =>
      have first : (setWordOf (m.set p v.toUInt8) (p + 1) (v >>> 8) n).octets p 1 = [v.toUInt8] := by
        simp [octets, get_setWordOf _ _ (Or.inl (Nat.lt_succ_self p))]
      have rest := ih (m.set p v.toUInt8) (p + 1) (v >>> 8)
      rw [setWordOf, Nat.add_comm n 1, octets_add, first, rest, Nat.add_comm 1 n]
      rfl

/-- Words of the same bytes agree in these. -/
theorem wordOf_congr {m m' : Memory} {p p' n : Nat}
    (same : ∀ k, k < n → m'.get (p' + k) = m.get (p + k)) : m'.wordOf p' n = m.wordOf p n := by
  induction n generalizing p p' with
  | zero => rfl
  | succ n ih =>
      have rest (k : Nat) (inside : k < n) : m'.get (p' + 1 + k) = m.get (p + 1 + k) := by
        rw [Nat.add_assoc, Nat.add_assoc, Nat.add_comm 1 k]
        exact same (k + 1) (Nat.succ_lt_succ inside)
      have first := same 0 (Nat.succ_pos n)
      rw [Nat.add_zero, Nat.add_zero] at first
      rw [wordOf, wordOf, ih rest, first]

theorem toNat_wordOf_octets {m : Memory} {p n : Nat} {v : UInt64} (fits : n ≤ 8)
    (bytes : m.octets p n = littleEndian n v) : (m.wordOf p n).toNat = v.toNat % 2 ^ (8 * n) := by
  -- Written to a memory and read back, the word is the same.
  rw [← octets_setWordOf m p n v] at bytes
  rw [wordOf_congr fun k inside => get_eq_of_octets bytes inside, toNat_wordOf _ _ _ fits]
  apply Nat.eq_of_testBit_eq
  intro j
  rw [testBit_field, Nat.testBit_mod_two_pow, bit_setWordOf]
  by_cases inside : j < 8 * n
  · rw [if_pos (by omega), Nat.add_sub_cancel_left]
  · simp [inside]

/-! ### Ranges replaced -/

section Replace

variable (m : Memory) {p n start stop k : Nat}

/-- A word in the place of as many bytes. -/
theorem octets_put (w : UInt64) (inside : start + k ≤ n) :
    (m.setWordOf (p + start) w k).octets p n =
      (m.octets p n).take start ++ littleEndian k w ++ (m.octets p n).drop (start + k) := by
  have outside (a : Nat) (there : a < p + start ∨ p + start + k ≤ a) := get_setWordOf m w there
  have list := octets_splice m _ p (littleEndian k w) inside (Nat.le_add_right start k)
    (fun a low => outside (p + a) (by omega))
    (by rw [Image.length_littleEndian]; exact octets_setWordOf ..)
    (fun a _ => by
      rw [Image.length_littleEndian, outside _ (by omega), Nat.add_assoc p start k])
  rwa [Image.length_littleEndian, Nat.add_sub_cancel' inside] at list

/-- A word between the bytes. -/
theorem octets_open (w : UInt64) (inside : start ≤ n) :
    ((m.move (p + start) (p + start + k) (n - start)).setWordOf (p + start) w k).octets p (n + k) =
      (m.octets p n).take start ++ littleEndian k w ++ (m.octets p n).drop start := by
  have outside (a : Nat) (there : a < p + start ∨ p + start + k ≤ a) :=
    get_setWordOf (m.move (p + start) (p + start + k) (n - start)) w there
  have list := octets_splice m _ p (littleEndian k w) inside (Nat.le_refl start)
    (fun a low => by rw [outside (p + a) (by omega), get_move, if_neg (by omega)])
    (by rw [Image.length_littleEndian]; exact octets_setWordOf ..)
    (fun a high => by
      rw [Image.length_littleEndian, outside _ (by omega), get_move, if_pos (by omega)]
      congr 1
      omega)
  rw [← list, Image.length_littleEndian]
  congr 1
  omega

/-- A range left out. -/
theorem octets_close (ordered : start ≤ stop) (inside : stop ≤ n) :
    (m.move (p + stop) (p + start) (n - stop)).octets p (n - (stop - start)) =
      (m.octets p n).take start ++ (m.octets p n).drop stop := by
  have list := octets_splice m (m.move (p + stop) (p + start) (n - stop)) p [] inside ordered
    (fun a low => by rw [get_move, if_neg (by omega)]) rfl
    (fun a high => by
      rw [List.length_nil, get_move, if_pos (by omega)]
      congr 1
      omega)
  rw [List.append_nil] at list
  rw [← list, List.length_nil]
  congr 1
  omega

/-- Bytes in the place of a range. -/
theorem octets_replace (data : ByteArray) (ordered : start ≤ stop) (inside : stop ≤ n) :
    ((m.move (p + stop) (p + start + data.size) (n - stop)).write (p + start) data).octets p
        (n - (stop - start) + data.size) =
      (m.octets p n).take start ++ data.data.toList ++ (m.octets p n).drop stop := by
  have size : data.data.toList.length = data.size := Array.length_toList
  have list := octets_splice m
    ((m.move (p + stop) (p + start + data.size) (n - stop)).write (p + start) data) p
    data.data.toList inside ordered
    (fun a low => by rw [get_write, if_neg (by omega), get_move, if_neg (by omega)])
    (by rw [size]; exact octets_write ..)
    (fun a high => by
      rw [size, get_write, if_neg (by omega), get_move, if_pos (by omega)]
      congr 1
      omega)
  rw [← list, size]
  congr 1
  omega

end Replace

end Memory

namespace Node

open Store (Evolves Turns)

variable {s s' : Store} {n n' : Node} {bs : List UInt8} {layout : Layout} {width : Nat}
  {R : Assertion} {m : Memory} {base : Nat} {own : Set Nat}

theorem dataSize_le (n : Node) :
    Header.length + n.head.layout.dataSize n.size n.width ≤ n.byteSize :=
  Header.length_le_bytesFor ..

/-- A node of whole bytes. -/
def octets (layout : Layout) (width : Nat) (n : Node) (bs : List UInt8) : Assertion where
  holds m base own := own = n.region base ∧ n.Stored m base ∧ n.head.layout = layout ∧
    n.width = width ∧ n.HasRole .plain ∧ m.octets n.data (layout.dataSize n.size width) = bs
  stable {m m'} base own same := by
    rintro ⟨rfl, h, rfl, rfl, for_, rfl⟩
    have bytes (i : Nat) (inside : i ∈ n.bytes) : m'.get i = m.get i := same i (h.reads inside)
    refine ⟨rfl, h.congr bytes, rfl, rfl, for_, Memory.octets_congr ?_⟩
    intro k inside
    have := n.dataSize_le
    apply bytes
    rw [data, Nat.add_assoc]
    exact ⟨Nat.le_add_right _ _, Nat.add_lt_add_left (by omega) _⟩

theorem octets_entails : (octets layout width n bs).Entails (stored n) :=
  fun _ _ _ h => ⟨h.1, h.2.1⟩

section Read

variable (h : (octets layout width n bs).holds m base own)
include h

theorem length_of_octets : bs.length = layout.dataSize n.size width := by
  rw [← h.2.2.2.2.2, Memory.length_octets]

theorem list_of_octets : m.octets n.data bs.length = bs := by
  rw [length_of_octets h]
  exact h.2.2.2.2.2

theorem isInner_of_octets : Branch.isInner m n.ref = false := by
  obtain ⟨-, stored, -, -, for_, -⟩ := h
  rw [Branch.isInner, stored.loaded, for_.1]
  rfl

end Read

/-- The node `g` in memory has `count` elements, and the edit knows it as `n'`, still with the size
of `n`. -/
structure Resized (n : Node) (count : Nat) (n' g : Node) : Prop where
  known : n' = ⟨g.ref, { n.head with capacity := g.capacity }⟩
  head : g.head = { n.head with capacity := g.capacity, size := count }

theorem Resized.known_after {g : Node} {count : Nat} (resized : Resized n count n' g) :
    (⟨n'.ref, { n'.head with size := count }⟩ : Node) = g := by
  rw [resized.known]
  exact congrArg (Node.mk g.ref) resized.head.symm

section Edits

variable (h : s.Holds (octets layout width n bs * R))
include h

/-- The node may have moved, and its bytes are the same. -/
theorem copyOnWrite_octets (run : copyOnWrite (n, s) = (.ok (), (n', s'))) :
    s'.Holds (octets layout width n' bs * R) ∧ s'.baseline ≤ n'.ref ∧
      n'.head = { n.head with capacity := n'.capacity } := by
  have copied := copyOnWrite_ok (live_of_holds (h.imp_left octets_entails)) run
  refine ⟨h.turn ?_, copied.mutable, copied.head⟩
  rintro _ - - ⟨rfl, -, rfl, rfl, for_, rfl⟩
  refine ⟨_, copied.evolves, rfl, copied.live.stored, by rw [copied.head], ?_, ?_, ?_⟩
  · rw [Node.width, copied.head]
  · rw [HasRole, copied.head]
    exact for_
  · have size : n'.size = n.size := by rw [Node.size, copied.head]
    rw [size]
    apply Memory.octets_congr
    intro k inside
    have := n.dataSize_le
    exact copied.data k (by omega)

/-- Bytes are written in place. -/
theorem write_octets {bs' : List UInt8} (mutable : s.baseline ≤ n.ref)
    (kept : ∀ i, i < n.data ∨ n.data + bs.length ≤ i → m.get i = s.memory.get i)
    (list : m.octets n.data bs.length = bs') :
    (s.withMemory m).Holds (octets layout width n bs' * R) := by
  have live := live_of_holds (h.imp_left octets_entails)
  obtain ⟨_, reads⟩ := h.reads
  have length := length_of_octets reads
  obtain ⟨-, -, rfl, rfl, -, -⟩ := reads
  have room := n.dataSize_le
  obtain ⟨live, step⟩ := live.write mutable fun i outside => kept i (by
    rw [payload, mem_block] at outside
    omega)
  refine h.turn ?_
  rintro _ - - ⟨rfl, -, -, -, for_, -⟩
  exact ⟨_, step, rfl, live.stored, rfl, rfl, for_, by rw [← list, length]; rfl⟩

/-- Room is made or given up; the bytes that stay are the same. -/
theorem reserve_octets {count : Nat} (mutable : s.baseline ≤ n.ref) (small : count < 2 ^ 24)
    (run : reserve count width (n, s) = (.ok (), (n', s'))) :
    ∃ g, s'.Holds (octets layout width g
        (s'.memory.octets g.data (layout.dataSize count width)) * R) ∧
      s'.baseline ≤ g.ref ∧
      (∀ k, k < bs.length → s'.memory.get (g.data + k) = s.memory.get (n.data + k)) ∧
      Resized n count n' g := by
  have live := live_of_holds (h.imp_left octets_entails)
  obtain ⟨own, reads⟩ := h.reads
  have length := length_of_octets reads
  obtain ⟨-, -, rfl, rfl, -, -⟩ := reads
  obtain ⟨g, grown⟩ := reserve_ok live mutable live.stored.legal small run
  have layout : g.head.layout = n.head.layout := by rw [grown.head]
  have width : g.width = n.width := by rw [Node.width, grown.head]
  have size : g.size = count := by rw [Node.size, grown.head]
  -- What the new bytes hold is not known, and no caller asks.
  refine ⟨g, ?_, grown.mutable, ?_, grown.known, by rw [grown.head]⟩
  · refine h.turn ?_
    rintro _ - - ⟨rfl, -, -, -, for_, -⟩
    refine ⟨_, grown.evolves, rfl, grown.live.stored, layout, width, ?_, by rw [size]⟩
    rw [HasRole, grown.head]
    exact for_
  · intro k inside
    have := n.dataSize_le
    exact grown.data k (by omega)

theorem setSize_octets {size : Nat} (mutable : s.baseline ≤ n.ref) (shorter : size ≤ n.size)
    (run : setSize size (n, s) = (.ok (), (n', s'))) :
    s'.Holds (octets layout width n' (bs.take (layout.dataSize size width)) * R) ∧
      n'.head = { n.head with size } := by
  simp only [setSize, setKnownSize, Edit.update_bind, Edit.self_bind, Edit.modifyMemory_apply] at run
  injection run with _ result
  injection result with node store
  have memory : s'.memory = s.memory.setHeaderSize n.ref size := by
    rw [← store, Store.memory_withMemory]
  have live := live_of_holds (h.imp_left octets_entails)
  have small : size < 2 ^ 24 := Nat.lt_of_le_of_lt shorter live.stored.size_lt
  have kept (i : Nat) (outside : i ∉ block n.ref Header.length) :
      (s.memory.setHeaderSize n.ref size).get i = s.memory.get i := by
    rw [mem_block, Header.length] at outside
    exact Memory.get_setHeaderSize _ (by omega)
  have header : (s.memory.setHeaderSize n.ref size).header n.ref = { n.head with size } := by
    rw [Memory.header_setHeaderSize, live.stored.loaded, Nat.mod_eq_of_lt small]
  have room : Header.byteSize { n.head with size } ≤ n.capacity :=
    Nat.le_trans (Header.bytesFor_mono shorter (Nat.le_refl _) _) (live.stored.room mutable)
  obtain ⟨live', step⟩ := live.rehead mutable kept header rfl room
  rw [store, node] at live' step
  have head : n'.head = { n.head with size } := by rw [← node]
  refine ⟨h.turn ?_, head⟩
  rintro _ - - ⟨rfl, -, rfl, rfl, for_, rfl⟩
  refine ⟨_, step, rfl, live'.stored, by rw [head], by rw [Node.width, head], ?_, ?_⟩
  · rw [HasRole, head]
    exact for_
  · have fewer : n.head.layout.dataSize size n.width ≤ n.head.layout.dataSize n.size n.width := by
      have := Nat.mul_le_mul_right n.width shorter
      cases n.head.layout <;> simp only [Layout.dataSize] <;> omega
    have place : n'.data = n.data := by rw [← node]; rfl
    have known : n'.size = size := by rw [Node.size, head]
    rw [← Memory.octets_take _ fewer, place, known, memory]
    refine Memory.octets_congr fun k _ => kept _ ?_
    rw [mem_block, data]
    omega

theorem truncate_octets {size : Nat} (whole : layout ≠ .bits) (shorter : size ≤ n.size)
    (run : truncate size (n, s) = (.ok (), (n', s'))) :
    s'.Holds (octets layout width n' (bs.take (layout.dataSize size width)) * R) ∧ n'.size = size := by
  simp only [truncate, Edit.bind_ok, Edit.self_bind] at run
  obtain ⟨_, ⟨n₁, s₁⟩, copy, _, ⟨n₂, s₂⟩, shrink, rest⟩ := run
  obtain ⟨h, mutable, head⟩ := copyOnWrite_octets h copy
  have same : n₁.size = n.size := by rw [Node.size, head]
  obtain ⟨h, head⟩ := setSize_octets h mutable (same ▸ shorter) shrink
  obtain ⟨_, reads⟩ := h.reads
  -- The width is given up only by an empty node of bits.
  have bits : ¬ (size = 0 ∧ n₂.head.layout = .bits) := fun both => whole (reads.2.2.1 ▸ both.2)
  rw [if_neg bits, Edit.pure_ok] at rest
  obtain ⟨-, known⟩ := rest
  cases known
  exact ⟨h, by rw [Node.size, head]⟩

end Edits

theorem create_octets (legal : width ∈ Width.legal) (h : s.Holds R)
    (run : create .plain layout width s = (.ok n, s')) :
    s'.Holds (octets layout width n [] * R) := by
  rw [← one_mul R] at h
  refine h.turn ?_
  rintro _ sound - rfl
  obtain ⟨live, -, head, step⟩ := create_ok sound legal run
  refine ⟨_, step, rfl, live.stored, by rw [head]; rfl, by rw [Node.width, head]; rfl,
    by rw [HasRole, head]; exact ⟨rfl, rfl⟩, ?_⟩
  have empty : layout.dataSize n.size width = 0 := by
    rw [Node.size, head]
    cases layout <;> simp [Layout.dataSize, Header.new]
  rw [empty]
  rfl

theorem owning_octets (layout : Layout) (width : Nat) (n : Node) (bs : List UInt8) :
    Owning (octets layout width n bs) n.ref := by
  rintro depth m base _ ⟨rfl, stored, -, -, for_, -⟩
  rw [stored.load, subtreeWithin_childless for_.2]
  have alone : (blocks [n]).holds m base (n.region base) := by
    rw [blocks_cons, blocks_nil, mul_one]
    exact ⟨rfl, stored⟩
  exact ⟨_, ∅, (Set.union_empty _).symm, Set.disjoint_empty _, alone, Assertion.holds_some⟩

end Node

end ColumnStore
