import ColumnStore.Proofs.AnySize
import ColumnStore.Proofs.Elements

set_option autoImplicit false

/-!
Edits of a packed node of any size, as edits of a list at a width. A value that is written raises
the width just as far as it takes.
-/
namespace ColumnStore

namespace Node

open Store (Evolves)

/-- The node holds the list `vs`, of any length. -/
structure Lists (s : Store) (n : Node) (vs : List Int64) : Prop where
  held : Held s n
  layout : n.head.layout = .bits
  list : n.toList s.memory = vs

/-- An edit left the list `vs` behind, at the width `w`. -/
structure Reached (s : Store) (n : Node) (s' : Store) (n' : Node) (vs : List Int64) (w : Nat) :
    Prop where
  lists : Lists s' n' vs
  width : n'.width = w
  evolves : Evolves s (n.region s.baseline) s' (n'.region s'.baseline)
  regular : n.Regular s.baseline → n'.Regular s'.baseline
  inner : n'.head.inner = n.head.inner
  refs : n'.head.hasRefs = n.head.hasRefs

variable {s s' s'' : Store} {n n' n'' : Node} {vs vs' vs'' : List Int64} {w w' : Nat} {m : Memory}

theorem toList_eq (m : Memory) (n : Node) : n.toList m = m.elements n.data n.width n.size := rfl

theorem bits_fit (layout : n.head.layout = .bits) :
    n.size * n.width ≤ 8 * (n.byteSize - Header.length) := by
  have := Header.length_le_bytesFor n.size n.width n.head.layout
  rw [layout, Layout.dataSize] at this
  show _ ≤ 8 * (Header.bytesFor n.size n.width n.head.layout - _)
  rw [layout]
  omega

theorem toList_of_data {m' : Memory} (legal : n.width ∈ Width.legal)
    (layout : n.head.layout = .bits) (width : n'.width = n.width) (size : n'.size = n.size)
    (data : SameData m n m' n') : n'.toList m' = n.toList m := by
  rw [toList_eq, toList_eq, width, size]
  apply Memory.elements_congr legal (bits_fit layout)
  intro k inside
  exact data k (by omega)

theorem Lists.length (lists : Lists s n vs) : vs.length = n.size := by
  rw [← lists.list, length_toList]

theorem Lists.legal (lists : Lists s n vs) : n.width ∈ Width.legal := lists.held.legal

theorem Lists.fits (lists : Lists s n vs) {v : Int64} (inside : v ∈ vs) :
    Width.fits n.width v = true := by
  rw [← lists.list] at inside
  obtain ⟨i, -, rfl⟩ := List.mem_map.mp inside
  exact Memory.fits_element s.memory n.data n.width i lists.legal

theorem Lists.get {i : Nat} (lists : Lists s n vs) (inside : i < vs.length) :
    n.get s.memory i = vs[i] := by
  have value := Memory.getElem?_elements s.memory n.data n.width n.size i
  rw [← toList_eq, lists.list, if_pos (lists.length ▸ inside),
    List.getElem?_eq_getElem inside] at value
  exact (Option.some.inj value).symm

theorem Lists.reached (lists : Lists s n vs) : Reached s n s n vs n.width :=
  ⟨lists, rfl, .refl lists.held.sound lists.held.owns, id, rfl, rfl⟩

theorem Reached.trans (first : Reached s n s' n' vs w) (second : Reached s' n' s'' n'' vs' w') :
    Reached s n s'' n'' vs' w' :=
  ⟨second.lists, second.width, first.evolves.trans second.evolves, second.regular ∘ first.regular,
    second.inner.trans first.inner, second.refs.trans first.refs⟩

theorem Lists.write (lists : Lists s n vs) (mutable : s.baseline ≤ n.ref)
    (same : Memory.SameBits s.memory m (8 * n.data) (n.size * n.width))
    (list : m.elements n.data n.width n.size = vs') : Reached s n (s.withMemory m) n vs' n.width := by
  have written : Held (s.withMemory m) n ∧
      Evolves s (n.region s.baseline) (s.withMemory m) (n.region s.baseline) := by
    apply lists.held.write mutable
    intro i outside
    apply same.get (bits_fit lists.layout)
    rw [payload, mem_block] at outside
    omega
  exact ⟨⟨written.1, lists.layout, list⟩, rfl, written.2, id, rfl, rfl⟩

theorem copyOnWrite_lists (lists : Lists s n vs) (run : copyOnWrite (n, s) = (.ok (), (n', s'))) :
    Reached s n s' n' vs n.width ∧ s'.baseline ≤ n'.ref := by
  have moved := copyOnWrite_moved lists.held run
  have width : n'.width = n.width := by rw [Node.width, moved.head]
  have size : n'.size = n.size := by rw [Node.size, moved.head]
  have layout : n'.head.layout = .bits := by
    rw [moved.head]
    exact lists.layout
  have list := toList_of_data lists.legal lists.layout width size moved.data
  refine ⟨⟨⟨moved.held, layout, list.trans lists.list⟩, width, moved.evolves, moved.regular, ?_, ?_⟩,
    moved.mutable⟩
  · rw [moved.head]
  · rw [moved.head]

theorem reserve_lists {count width : Nat} (lists : Lists s n vs) (mutable : s.baseline ≤ n.ref)
    (legal : width ∈ Width.legal) (run : reserve count width (n, s) = (.ok (), (n', s'))) :
    ∃ g, Reserved s n count width s' n' g ∧ g.head.layout = .bits ∧
      s'.memory.elements g.data n.width n.size = vs := by
  obtain ⟨g, reserved⟩ := reserve_reserved lists.held mutable legal run
  refine ⟨g, reserved, ?_, ?_⟩
  · rw [reserved.head]
    exact lists.layout
  · rw [← lists.list, toList_eq]
    apply Memory.elements_congr lists.legal (bits_fit lists.layout)
    intro k inside
    exact reserved.data k (by omega)

theorem Reserved.known_after {count width : Nat} {g : Node}
    (reserved : Reserved s n count width s' n' g) :
    (⟨n'.ref, { n'.head with width, size := count }⟩ : Node) = g := by
  rw [reserved.known]
  exact congrArg (Node.mk g.ref) reserved.head.symm

theorem Reserved.write {count width : Nat} {g : Node} (reserved : Reserved s n count width s' n' g)
    (layout : g.head.layout = .bits)
    (same : Memory.SameBits s'.memory m (8 * g.data) (count * width))
    (list : m.elements g.data width count = vs') :
    Reached s n (s'.withMemory m) g vs' width := by
  have size : g.size = count := by rw [Node.size, reserved.head]
  have known : g.width = width := by rw [Node.width, reserved.head]
  have lists : Lists s' g (g.toList s'.memory) := ⟨reserved.held, layout, rfl⟩
  rw [← size, ← known] at same list
  have written := lists.write reserved.mutable same list
  refine ⟨written.lists, known, reserved.evolves.trans written.evolves, reserved.regular, ?_, ?_⟩
  · rw [reserved.head]
  · rw [reserved.head]

/-- Room was made for `count` elements at `width`, which are still to be written. The node `g` counts
on them already, and the old elements start where the new ones will. -/
structure Readied (s : Store) (n : Node) (vs : List Int64) (count width : Nat) (s' : Store)
    (g : Node) : Prop where
  mutable : s'.baseline ≤ g.ref
  list : s'.memory.elements g.data n.width n.size = vs
  write : ∀ m vs', Memory.SameBits s'.memory m (8 * g.data) (count * width) →
    m.elements g.data width count = vs' → Reached s n (s'.withMemory m) g vs' width

theorem Reached.readied {count width : Nat} (copied : Reached s n s' n' vs n.width)
    (size : n'.size = n.size) (mutable : s'.baseline ≤ n'.ref) (legal : width ∈ Width.legal)
    (run : reserve count width (n', s') = (.ok (), (n'', s''))) :
    n''.size = n.size ∧
      Readied s n vs count width s'' ⟨n''.ref, { n''.head with width, size := count }⟩ := by
  obtain ⟨g, reserved, layout, list⟩ := reserve_lists copied.lists mutable legal run
  rw [copied.width, size] at list
  rw [reserved.known_after, reserved.known]
  exact ⟨size, reserved.mutable, list,
    fun m vs' same new => copied.trans (reserved.write layout same new)⟩

theorem ensureWidth_readied {v : Int64} (lists : Lists s n vs)
    (outside : Width.fits n.width v = false) (run : ensureWidth v (n, s) = (.ok (), (n', s'))) :
    ∃ t, Readied s n vs n.size (Width.ofValue v) t n' ∧
      t.withMemory (t.memory.widen n'.data n.width (Width.ofValue v) n.size) = s' := by
  simp only [ensureWidth, Edit.self_bind, outside, Bool.not_false, if_true, Edit.bind_ok,
    setKnownWidth, Edit.update_bind, Edit.modifyMemory_apply] at run
  obtain ⟨_, ⟨n₁, s₁⟩, copy, _, ⟨n₂, s₂⟩, grow, result⟩ := run
  obtain ⟨copied, mutable⟩ := copyOnWrite_lists lists copy
  have same : n₁.size = n.size := copied.lists.length.symm.trans lists.length
  obtain ⟨size, readied⟩ := copied.readied same mutable (Width.ofValue_legal v) grow
  injection result with _ result
  injection result with node store
  -- The size was written as it was, so the edit knows the node that the room was made for.
  rw [← size] at readied ⊢
  subst node
  exact ⟨s₂, readied, store⟩

theorem insert_readied {i : Nat} {v : Int64} (lists : Lists s n vs)
    (run : insert i v (n, s) = (.ok (), (n', s'))) :
    ∃ t, Readied s n vs (n.size + 1) (Width.raise n.width [v]) t n' ∧
      t.withMemory (insertElement t.memory n'.data n.width (Width.raise n.width [v]) n.size i v) =
        s' := by
  simp only [insert, Edit.bind_ok, Edit.self_bind, setKnownWidth, setKnownSize, Edit.update_bind,
    Edit.update_apply, Edit.modifyMemory_bind] at run
  obtain ⟨_, ⟨n₁, s₁⟩, copy, _, ⟨n₂, s₂⟩, grow, result⟩ := run
  obtain ⟨copied, mutable⟩ := copyOnWrite_lists lists copy
  have same : n₁.size = n.size := copied.lists.length.symm.trans lists.length
  dsimp only at grow result
  rw [Width.raise_one copied.lists.legal, copied.width, same] at grow result
  obtain ⟨-, readied⟩ := copied.readied same mutable (Width.raise_legal lists.legal [v]) grow
  injection result with _ result
  injection result with node store
  subst node
  exact ⟨s₂, readied, store⟩

theorem ensureWidth_lists {v : Int64} (lists : Lists s n vs)
    (run : ensureWidth v (n, s) = (.ok (), (n', s'))) :
    Reached s n s' n' vs (Width.raise n.width [v]) ∧ (s.baseline ≤ n.ref → s'.baseline ≤ n'.ref) := by
  rw [← Width.raise_one lists.legal]
  cases fits : Width.fits n.width v with
  | true =>
      simp only [ensureWidth, Edit.self_bind, fits, Bool.not_true, Bool.false_eq_true, if_false,
        Edit.pure_ok] at run
      obtain ⟨-, same⟩ := run
      cases same
      exact ⟨lists.reached, id⟩
  | false =>
      obtain ⟨t, readied, rfl⟩ := ensureWidth_readied lists fits run
      have legal := Width.ofValue_legal v
      have wider := Nat.le_of_lt (Width.lt_ofValue lists.legal fits)
      rw [if_neg Bool.false_ne_true]
      exact ⟨readied.write _ vs (Memory.widen_correct t.memory lists.legal legal wider n.size).1
        ((Memory.elements_widen t.memory lists.legal legal wider n.size).trans readied.list),
        fun _ => readied.mutable⟩

theorem set_lists {i : Nat} {v : Int64} (lists : Lists s n vs) (inside : i < vs.length)
    (run : set i v (n, s) = (.ok (), (n', s'))) :
    Reached s n s' n' (vs.set i v) (Width.raise n.width [v]) ∧ s'.baseline ≤ n'.ref := by
  simp only [set, Edit.bind_ok, Edit.self_bind, Edit.modifyMemory_apply] at run
  obtain ⟨_, ⟨n₁, s₁⟩, copy, _, ⟨n₂, s₂⟩, widen, result⟩ := run
  injection result with _ result
  injection result with node store
  subst node
  obtain ⟨copied, mutable⟩ := copyOnWrite_lists lists copy
  obtain ⟨widened, stays⟩ := ensureWidth_lists copied.lists widen
  rw [copied.width] at widened
  have legal := widened.lists.legal
  have fits : Width.fits n₂.width v = true := by
    rw [widened.width]
    exact Width.fits_raise lists.legal (by simp)
  -- Of the elements just the bits of one are written.
  have place : i < n₂.size := widened.lists.length ▸ inside
  have within := Nat.mul_le_mul_right n₂.width (show i + 1 ≤ n₂.size from place)
  rw [Nat.succ_mul i n₂.width] at within
  have written := widened.lists.write (stays mutable)
    ((Memory.sameBits_setElement s₂.memory n₂.data n₂.width i v legal).mono (by omega) (by omega))
    (Memory.elements_setElement s₂.memory legal fits place)
  rw [← toList_eq, widened.lists.list, store, widened.width] at written
  refine ⟨(copied.trans widened).trans written, ?_⟩
  rw [← store]
  exact stays mutable

theorem insert_lists {i : Nat} {v : Int64} (lists : Lists s n vs) (inside : i ≤ vs.length)
    (run : insert i v (n, s) = (.ok (), (n', s'))) :
    Reached s n s' n' (vs.insertIdx i v) (Width.raise n.width [v]) ∧ s'.baseline ≤ n'.ref := by
  obtain ⟨t, readied, rfl⟩ := insert_readied lists run
  have fits : Width.fits (Width.raise n.width [v]) v = true := Width.fits_raise lists.legal (by simp)
  have correct := Memory.insertElement_correct t.memory (p := n'.data) lists.legal
    (Width.raise_legal lists.legal [v]) (Width.le_raise lists.legal [v]) fits (lists.length ▸ inside)
  rw [readied.list] at correct
  exact ⟨readied.write _ _ correct.1 correct.2, readied.mutable⟩

theorem add_lists {v : Int64} (lists : Lists s n vs) (run : add v (n, s) = (.ok (), (n', s'))) :
    Reached s n s' n' (vs ++ [v]) (Width.raise n.width [v]) ∧ s'.baseline ≤ n'.ref := by
  simp only [add, Edit.self_bind, ← lists.length] at run
  rw [← List.insertIdx_length_self]
  exact insert_lists lists (Nat.le_refl _) run

/-! ### Shorter and narrower nodes -/

/-- Only the header changes, and the elements it speaks of are among the old ones. -/
theorem Lists.rehead {h : Header} (lists : Lists s n vs) (mutable : s.baseline ≤ n.ref)
    (kept : ∀ i, i ∉ block n.ref Header.length → m.get i = s.memory.get i)
    (header : m.header n.ref = h.wrap) (shorter : h.size ≤ n.size) (narrower : h.width ≤ n.width)
    (rest : h = { n.head with size := h.size, width := h.width, context := h.context }) :
    Reached s n (s.withMemory m) ⟨n.ref, h⟩ (s.memory.elements n.data h.width h.size) h.width := by
  have layout : h.layout = .bits := by
    rw [rest]
    exact lists.layout
  have same : h.capacity = n.capacity := by rw [rest]
  have room : h.byteSize ≤ n.capacity := by
    rw [Header.byteSize, layout]
    refine Nat.le_trans (Header.bytesFor_mono shorter narrower _) ?_
    rw [← lists.layout]
    exact lists.held.room mutable
  obtain ⟨held, step⟩ := lists.held.rehead mutable kept header same room
  refine ⟨⟨held, layout, ?_⟩, rfl, step, fun regular => regular.rehead mutable same room, ?_, ?_⟩
  · apply Memory.elements_congr held.legal (bits_fit layout)
    intro k _
    apply kept
    intro inside
    have := inside.2
    dsimp only [data] at this
    omega
  · rw [rest]
  · rw [rest]

theorem setSize_lists {size : Nat} (lists : Lists s n vs) (mutable : s.baseline ≤ n.ref)
    (shorter : size ≤ n.size) (run : setSize size (n, s) = (.ok (), (n', s'))) :
    Reached s n s' n' (vs.take size) n.width ∧ n' = ⟨n.ref, { n.head with size }⟩ := by
  simp only [setSize, setKnownSize, Edit.update_bind, Edit.self_bind, Edit.modifyMemory_apply] at run
  injection run with _ result
  injection result with node store
  have kept (i : Nat) (outside : i ∉ block n.ref Header.length) :
      (s.memory.setHeaderSize n.ref size).get i = s.memory.get i := by
    rw [mem_block, Header.length] at outside
    exact Memory.get_setHeaderSize _ (by omega)
  have header : (s.memory.setHeaderSize n.ref size).header n.ref =
      Header.wrap { n.head with size } := by
    rw [Memory.header_setHeaderSize, lists.held.header]
    rfl
  have reached := lists.rehead mutable kept header shorter (Nat.le_refl _) rfl
  rw [store, Memory.elements_take _ shorter, ← toList_eq, lists.list] at reached
  subst node
  exact ⟨reached, rfl⟩

theorem setWidth_lists {width : Nat} (lists : Lists s n vs) (mutable : s.baseline ≤ n.ref)
    (legal : width ∈ Width.legal) (narrower : width ≤ n.width)
    (run : setWidth width (n, s) = (.ok (), (n', s'))) :
    Reached s n s' n' (s.memory.elements n.data width n.size) width := by
  simp only [setWidth, setKnownWidth, Edit.update_bind, Edit.self_bind, Edit.modifyMemory_apply]
    at run
  injection run with _ result
  injection result with node store
  have kept (i : Nat) (outside : i ∉ block n.ref Header.length) :
      (s.memory.setHeaderWidth n.ref width).get i = s.memory.get i := by
    rw [mem_block, Header.length] at outside
    exact Memory.get_setHeaderWidth _ (by omega)
  have header : (s.memory.setHeaderWidth n.ref width).header n.ref =
      Header.wrap { n.head with width } := by
    rw [Memory.header_setHeaderWidth _ _ _ legal, lists.held.header]
    rfl
  have reached := lists.rehead mutable kept header (Nat.le_refl _) narrower rfl
  rw [store] at reached
  subst node
  exact reached

theorem eraseRange_lists {start stop : Nat} (lists : Lists s n vs) (ordered : start ≤ stop)
    (inside : stop ≤ vs.length) (run : eraseRange start stop (n, s) = (.ok (), (n', s'))) :
    Reached s n s' n' (vs.take start ++ vs.drop stop) n.width ∧
      (start < stop → s'.baseline ≤ n'.ref) := by
  simp only [eraseRange] at run
  by_cases empty : start = stop
  · rw [if_neg (not_not_intro empty), Edit.pure_ok] at run
    obtain ⟨-, same⟩ := run
    cases same
    rw [empty, List.take_append_drop]
    exact ⟨lists.reached, fun some => absurd some (Nat.lt_irrefl stop)⟩
  · rw [if_pos empty] at run
    simp only [Edit.bind_ok, Edit.self_bind, Edit.modifyMemory_bind] at run
    obtain ⟨_, ⟨n₁, s₁⟩, copy, shrink⟩ := run
    obtain ⟨copied, mutable⟩ := copyOnWrite_lists lists copy
    have length := copied.lists.length
    obtain ⟨same, list⟩ := Memory.eraseElements_correct s₁.memory (p := n₁.data) (n := n₁.size)
      copied.lists.legal ordered (length ▸ inside)
    dsimp only at shrink
    generalize eraseElements s₁.memory n₁.data n₁.width n₁.size start stop = m at same list shrink
    -- The rest of the list moves down under the old size, and then the size cuts off what is over.
    have moved := copied.lists.write mutable same rfl
    obtain ⟨shorter, known⟩ := setSize_lists moved.lists mutable (Nat.sub_le _ _) shrink
    have baseline : s'.baseline = s₁.baseline := shorter.evolves.baseline
    rw [← Memory.elements_take _ (Nat.sub_le _ _), list, ← toList_eq, copied.lists.list,
      copied.width] at shorter
    refine ⟨(copied.trans moved).trans shorter, fun _ => ?_⟩
    rw [known, baseline]
    exact mutable

theorem erase_lists {i : Nat} (lists : Lists s n vs) (inside : i < vs.length)
    (run : erase i (n, s) = (.ok (), (n', s'))) :
    Reached s n s' n' (vs.eraseIdx i) n.width ∧ s'.baseline ≤ n'.ref := by
  rw [List.eraseIdx_eq_take_drop_succ]
  obtain ⟨reached, mutable⟩ := eraseRange_lists lists (Nat.le_succ i) inside run
  exact ⟨reached, mutable (Nat.lt_succ_self i)⟩

theorem truncate_lists {size : Nat} (lists : Lists s n vs) (inside : size ≤ vs.length)
    (run : truncate size (n, s) = (.ok (), (n', s'))) :
    Reached s n s' n' (vs.take size) (if size = 0 then 0 else n.width) := by
  simp only [truncate, Edit.bind_ok, Edit.self_bind] at run
  obtain ⟨_, ⟨n₁, s₁⟩, copy, _, ⟨n₂, s₂⟩, shrink, rest⟩ := run
  obtain ⟨copied, mutable⟩ := copyOnWrite_lists lists copy
  obtain ⟨shorter, known⟩ :=
    setSize_lists copied.lists mutable (copied.lists.length ▸ inside) shrink
  have baseline : s₂.baseline = s₁.baseline := by
    cases shrink
    rfl
  -- The width goes with the last element.
  by_cases empty : size = 0
  · rw [if_pos ⟨empty, shorter.lists.layout⟩] at rest
    have still : s₂.baseline ≤ n₂.ref := by
      rw [baseline, known]
      exact mutable
    have reached := setWidth_lists shorter.lists still (by decide) (Nat.zero_le _) rest
    have none : n₂.size = 0 := by rw [known]; exact empty
    rw [none, Memory.elements_take (n := 0) _ (Nat.le_refl 0)] at reached
    rw [if_pos empty]
    rw [empty] at shorter ⊢
    simpa using (copied.trans shorter).trans reached
  · rw [if_neg (fun both => empty both.1), Edit.pure_ok] at rest
    obtain ⟨-, same⟩ := rest
    cases same
    rw [if_neg empty, ← copied.width]
    exact copied.trans shorter

theorem setAllToZero_lists (lists : Lists s n vs)
    (run : setAllToZero (n, s) = (.ok (), (n', s'))) :
    Reached s n s' n' (List.replicate vs.length 0) 0 := by
  simp only [setAllToZero, Edit.bind_ok] at run
  obtain ⟨_, ⟨n₁, s₁⟩, copy, narrow⟩ := run
  obtain ⟨copied, mutable⟩ := copyOnWrite_lists lists copy
  have reached := setWidth_lists copied.lists mutable (by decide) (Nat.zero_le _) narrow
  rw [Memory.elements_zero_width, ← copied.lists.length] at reached
  exact copied.trans reached

theorem setContext_lists {value : Bool} (lists : Lists s n vs)
    (run : setContext value (n, s) = (.ok (), (n', s'))) : Reached s n s' n' vs n.width := by
  simp only [setContext, Edit.self_bind] at run
  by_cases same : n.head.context = value
  · rw [if_neg (not_not_intro same), Edit.pure_ok] at run
    obtain ⟨-, same⟩ := run
    cases same
    exact lists.reached
  · rw [if_pos same] at run
    simp only [Edit.bind_ok, Edit.self_bind, Edit.update_bind, Edit.modifyMemory_apply] at run
    obtain ⟨_, ⟨n₁, s₁⟩, copy, result⟩ := run
    injection result with _ result
    injection result with node store
    obtain ⟨copied, mutable⟩ := copyOnWrite_lists lists copy
    have kept (i : Nat) (outside : i ∉ block n₁.ref Header.length) :
        (s₁.memory.setHeaderContext n₁.ref value).get i = s₁.memory.get i := by
      rw [mem_block, Header.length] at outside
      exact Memory.get_setHeaderContext _ (by omega)
    have header : (s₁.memory.setHeaderContext n₁.ref value).header n₁.ref =
        Header.wrap { n₁.head with context := value } := by
      rw [Memory.header_setHeaderContext, copied.lists.held.header]
      rfl
    have reached := copied.lists.rehead mutable kept header (Nat.le_refl _) (Nat.le_refl _) rfl
    rw [store, node, ← toList_eq, copied.lists.list] at reached
    rw [← copied.width]
    exact copied.trans reached

/-! ### Sums -/

theorem adjust_lists {i : Nat} {d : Int64} (lists : Lists s n vs) (inside : i < vs.length)
    (run : adjust i d (n, s) = (.ok (), (n', s'))) :
    Reached s n s' n' (vs.modify i (· + d)) (Width.raise n.width [vs[i] + d]) ∧
      s'.baseline ≤ n'.ref := by
  simp only [adjust, Edit.self_bind, Edit.read_bind] at run
  rw [lists.get inside] at run
  rw [List.modify_eq_set, List.getElem?_eq_getElem inside]
  exact set_lists lists inside run

/-- `d` added to the elements from `start` on and before `stop`. -/
def addBetween (start stop : Nat) (d : Int64) (vs : List Int64) : List Int64 :=
  vs.mapIdx fun j v => if start ≤ j ∧ j < stop then v + d else v

theorem addBetween_empty {start stop : Nat} (empty : stop ≤ start) (d : Int64) (vs : List Int64) :
    addBetween start stop d vs = vs := by
  apply List.ext_getElem (by simp [addBetween])
  intro j _ _
  have : ¬ (start ≤ j ∧ j < stop) := by omega
  simp [addBetween, this]

theorem addBetween_succ (start stop : Nat) (some : start < stop) (d : Int64) (vs : List Int64) :
    addBetween (start + 1) stop d (vs.modify start (· + d)) = addBetween start stop d vs := by
  apply List.ext_getElem (by simp [addBetween])
  intro j _ _
  simp only [addBetween, List.getElem_mapIdx, List.getElem_modify]
  by_cases first : start = j
  · rw [if_pos first, if_neg (by omega), if_pos (by omega)]
  · have same : start + 1 ≤ j ∧ j < stop ↔ start ≤ j ∧ j < stop := by omega
    simp only [first, same, if_false]

/-- What `d` makes of the elements from `start` on and before `stop`. -/
def sumsBetween (start stop : Nat) (d : Int64) (vs : List Int64) : List Int64 :=
  ((vs.take stop).drop start).map (· + d)

theorem sumsBetween_succ {start stop : Nat} (some : start < stop) (d : Int64) {vs : List Int64}
    (inside : stop ≤ vs.length) :
    sumsBetween start stop d vs =
      (vs[start] + d) :: sumsBetween (start + 1) stop d (vs.modify start (· + d)) := by
  have place : start < (vs.take stop).length := by simp; omega
  rw [sumsBetween, sumsBetween, List.drop_eq_getElem_cons place, List.map_cons, List.getElem_take]
  congr 2
  -- The first sum is behind what follows.
  apply List.ext_getElem (by simp)
  intro j _ _
  simp only [List.getElem_drop, List.getElem_take, List.getElem_modify]
  rw [if_neg (by omega)]

theorem adjustFrom_lists {d : Int64} {i count : Nat} (lists : Lists s n vs)
    (inside : i + count ≤ vs.length) (run : adjustFrom d i count (n, s) = (.ok (), (n', s'))) :
    Reached s n s' n' (addBetween i (i + count) d vs)
      (Width.raise n.width (sumsBetween i (i + count) d vs)) := by
  -- The first sum may move and widen the node, so the induction is over all nodes and lists.
  induction count generalizing i n s vs with
  | zero =>
      rw [adjustFrom, Edit.pure_ok] at run
      obtain ⟨-, same⟩ := run
      cases same
      rw [Nat.add_zero, addBetween_empty (Nat.le_refl _)]
      simpa [sumsBetween] using lists.reached
  | succ count ih =>
      rw [adjustFrom, Edit.bind_ok] at run
      obtain ⟨_, ⟨n₁, s₁⟩, first, rest⟩ := run
      obtain ⟨reached, -⟩ := adjust_lists lists (by omega) first
      have reached' := ih reached.lists (by simp; omega) rest
      have place : i + 1 + count = i + (count + 1) := by omega
      rw [place, addBetween_succ _ _ (by omega), reached.width, ← Width.raise_append,
        List.singleton_append, ← sumsBetween_succ (by omega) d inside] at reached'
      exact reached.trans reached'

theorem adjustRange_lists {d : Int64} {start stop : Nat} (lists : Lists s n vs)
    (inside : stop ≤ vs.length) (run : adjustRange start stop d (n, s) = (.ok (), (n', s'))) :
    Reached s n s' n' (addBetween start stop d vs)
      (Width.raise n.width (sumsBetween start stop d vs)) := by
  rw [adjustRange] at run
  by_cases empty : stop ≤ start
  · rw [Nat.sub_eq_zero_of_le empty, adjustFrom, Edit.pure_ok] at run
    obtain ⟨-, same⟩ := run
    cases same
    have none : sumsBetween start stop d vs = [] := by
      rw [sumsBetween, List.drop_eq_nil_of_le (by simp; omega), List.map_nil]
    rw [addBetween_empty empty, none]
    exact lists.reached
  · have whole : start + (stop - start) = stop := by omega
    have reached := adjustFrom_lists lists (by omega) run
    rwa [whole] at reached

/-- `d` added to the elements from place `i` on that are at least `limit`. -/
def addAtLeast (limit d : Int64) (i : Nat) (vs : List Int64) : List Int64 :=
  vs.mapIdx fun j v => if i ≤ j ∧ limit ≤ v then v + d else v

theorem addAtLeast_succ (limit d : Int64) {i : Nat} {vs : List Int64} (inside : i < vs.length) :
    addAtLeast limit d (i + 1) (if limit ≤ vs[i] then vs.modify i (· + d) else vs) =
      addAtLeast limit d i vs := by
  by_cases large : limit ≤ vs[i]
  · rw [if_pos large]
    apply List.ext_getElem (by simp [addAtLeast])
    intro j _ _
    simp only [addAtLeast, List.getElem_mapIdx, List.getElem_modify]
    by_cases first : i = j
    · subst first
      rw [if_pos rfl, if_neg (fun h => Nat.not_succ_le_self i h.1), if_pos ⟨Nat.le_refl i, large⟩]
    · have same : i + 1 ≤ j ↔ i ≤ j := by omega
      simp only [first, same, if_false]
  · rw [if_neg large]
    apply List.ext_getElem (by simp [addAtLeast])
    intro j _ _
    simp only [addAtLeast, List.getElem_mapIdx]
    by_cases first : i = j
    · subst first
      rw [if_neg (fun h => large h.2), if_neg (fun h => large h.2)]
    · have same : i + 1 ≤ j ↔ i ≤ j := by omega
      simp only [same]

/-- What `d` makes of the elements from place `i` on that are at least `limit`. -/
def sumsAtLeast (limit d : Int64) (i : Nat) (vs : List Int64) : List Int64 :=
  ((vs.drop i).filter (limit ≤ ·)).map (· + d)

theorem addAtLeast_all (limit d : Int64) {i : Nat} {vs : List Int64} (all : vs.length ≤ i) :
    addAtLeast limit d i vs = vs := by
  apply List.ext_getElem (by simp [addAtLeast])
  intro j _ _
  have : ¬ i ≤ j := by simp [addAtLeast] at *; omega
  simp [addAtLeast, this]

theorem adjustFromAtLeast_lists {limit d : Int64} {i count : Nat} (lists : Lists s n vs)
    (whole : i + count = vs.length)
    (run : adjustFromAtLeast limit d i count (n, s) = (.ok (), (n', s'))) :
    Reached s n s' n' (addAtLeast limit d i vs)
      (Width.raise n.width (sumsAtLeast limit d i vs)) := by
  induction count generalizing i n s vs with
  | zero =>
      rw [adjustFromAtLeast, Edit.pure_ok] at run
      obtain ⟨-, same⟩ := run
      cases same
      have none : sumsAtLeast limit d i vs = [] := by
        rw [sumsAtLeast, List.drop_eq_nil_of_le (by omega)]
        rfl
      rw [addAtLeast_all limit d (by omega), none]
      exact lists.reached
  | succ count ih =>
      have inside : i < vs.length := by omega
      simp only [adjustFromAtLeast, Edit.self_bind, Edit.read_bind] at run
      rw [lists.get inside] at run
      rw [← addAtLeast_succ limit d inside, sumsAtLeast, List.drop_eq_getElem_cons inside]
      by_cases large : limit ≤ vs[i]
      · rw [if_pos large] at run ⊢
        obtain ⟨_, ⟨n₁, s₁⟩, first, rest⟩ := Edit.bind_ok.mp run
        obtain ⟨reached, -⟩ := adjust_lists lists inside first
        have reached' := ih reached.lists (by simp; omega) rest
        rw [reached.width, ← Width.raise_append, sumsAtLeast,
          List.drop_modify_of_lt _ _ _ _ (Nat.lt_succ_self i)] at reached'
        rw [List.filter_cons_of_pos (by simpa using large), List.map_cons]
        exact reached.trans reached'
      · rw [if_neg large] at run ⊢
        rw [List.filter_cons_of_neg (by simpa using large)]
        exact ih lists (by omega) run

theorem adjustAtLeast_lists {limit d : Int64} (lists : Lists s n vs)
    (run : adjustAtLeast limit d (n, s) = (.ok (), (n', s'))) :
    Reached s n s' n' (vs.map fun v => if limit ≤ v then v + d else v)
      (Width.raise n.width ((vs.filter (limit ≤ ·)).map (· + d))) := by
  simp only [adjustAtLeast, Edit.self_bind] at run
  have reached := adjustFromAtLeast_lists lists (by rw [Nat.zero_add, lists.length]) run
  have all : addAtLeast limit d 0 vs = vs.map fun v => if limit ≤ v then v + d else v := by
    apply List.ext_getElem (by simp [addAtLeast])
    intro j _ _
    simp [addAtLeast]
  rwa [all] at reached

end Node

end ColumnStore
