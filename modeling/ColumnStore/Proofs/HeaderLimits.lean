import ColumnStore.Proofs.Blob
import ColumnStore.Proofs.HighWater
import ColumnStore.Proofs.ScalarLeaf

set_option autoImplicit false

/-!
What the header in memory can hold of a node that grew. Room is counted in bytes, so elements of a
byte or more never get too many; of narrower ones the header keeps the low bits of the count.
-/
namespace ColumnStore

variable {s₀ s s' : Store}

namespace Node

variable {n n' : Node} {ops : List Op}

/-- The room of a node that was created is in its header, and so is its size as long as three bytes
hold it: always when the elements are whole bytes. -/
theorem run_header {role : Role} (sound : s₀.Sound) (created : createPacked role s₀ = (.ok n, s))
    (inRange : EachInRange ops []) (ok : run ops (n, s) = (.ok (), (n', s'))) :
    load s'.memory n'.ref = ⟨n'.ref, { n'.head with size := n'.size % 2 ^ 24 }⟩ ∧
      (load s'.memory n'.ref = n' ↔ n'.size ≤ maxSize) ∧ (8 ≤ n'.width → n'.size ≤ maxSize) := by
  obtain ⟨lists, width⟩ := created_lists sound created
  obtain ⟨packed, -⟩ := createPacked_ok sound created
  have reached := run_reached lists width inRange ok
  have regular := reached.regular packed.live.regular
  have stored : load s'.memory n'.ref = ⟨n'.ref, { n'.head with size := n'.size % 2 ^ 24 }⟩ := by
    rw [load, reached.lists.held.header, Header.wrap, Nat.mod_eq_of_lt regular.capacity_lt]
  refine ⟨stored, ?_, ?_⟩
  · rw [stored]
    constructor
    · intro same
      have kept : n'.size % 2 ^ 24 = n'.size := congrArg Node.size same
      rw [maxSize]
      omega
    · intro small
      rw [Nat.mod_eq_of_lt (Nat.lt_of_le_of_lt small (by decide))]
  · -- Whole bytes count towards the capacity, which three bytes can hold.
    intro bytes
    have fits := bits_fit reached.lists.layout
    have whole := Nat.mul_le_mul_left n'.size bytes
    have used := regular.fits
    rw [Header.maxCapacity] at used
    rw [maxSize]
    omega

end Node

/-! ### Leaves of whole bytes -/

section Puts

variable {σ V : Type} {insert : Nat → V → Edit σ Unit} {length : V → Nat}

/-- Values put in one after the other, each at its place. -/
def insertEach (insert : Nat → V → Edit σ Unit) : List (Nat × V) → Edit σ Unit
  | [] => pure ()
  | (i, v) :: puts => do
      insert i v
      insertEach insert puts

/-- Each place is inside, where a value is as long as `length` says. -/
def PutsInRange (length : V → Nat) : List (Nat × V) → Nat → Prop
  | [], _ => True
  | (i, v) :: puts, size => i ≤ size ∧ PutsInRange length puts (size + length v)

theorem insertEach_keeps {P : σ → Store → Nat → Prop}
    (step : ∀ {i v a a' s s' size}, P a s size → i ≤ size →
      insert i v (a, s) = (.ok (), (a', s')) → P a' s' (size + length v))
    {puts : List (Nat × V)} {a a' : σ} {size : Nat} (holds : P a s size)
    (inRange : PutsInRange length puts size)
    (ok : insertEach insert puts (a, s) = (.ok (), (a', s'))) : ∃ size', P a' s' size' := by
  induction puts generalizing a s size with
  | nil =>
      obtain ⟨-, same⟩ := Edit.pure_ok.mp ok
      cases same
      exact ⟨size, holds⟩
  | cons put puts ih =>
      obtain ⟨i, v⟩ := put
      rw [insertEach, Edit.bind_ok] at ok
      obtain ⟨_, ⟨a₁, s₁⟩, first, rest⟩ := ok
      exact ih (step holds inRange.1 first) inRange.2 rest

end Puts

theorem Blob.insertEach_header {b b' : Blob} {puts : List (Nat × ByteArray)} (sound : s₀.Sound)
    (created : create s₀ = (.ok b, s)) (inRange : PutsInRange ByteArray.size puts 0)
    (ok : insertEach insert puts (b, s) = (.ok (), (b', s'))) :
    Node.load s'.memory b'.node.ref = b'.node := by
  have start : ∃ bs, bs.length = 0 ∧ s.Holds (holds b bs * 1) :=
    ⟨[], rfl, create_holds (Store.holds_one sound) created⟩
  have kept := insertEach_keeps
    (P := fun b s size => ∃ bs, bs.length = size ∧ s.Holds (holds b bs * 1)) ?_ start inRange ok
  · obtain ⟨_, bs, -, h⟩ := kept
    obtain ⟨_, reads⟩ := h.reads
    exact reads.2.1.load
  · rintro i data b b' s s' _ ⟨bs, rfl, h⟩ inside run
    refine ⟨_, ?_, replace_holds h (Nat.le_refl i) inside run⟩
    simp
    omega

theorem ScalarLeaf.insert_small {α : Type} [Scalar α] [LawfulScalar α] {l l' : ScalarLeaf α}
    {vs : List α} {R : Assertion} {i : Nat} {v : α} (h : s.Holds (holds l vs * R))
    (run : insert i v (l, s) = (.ok (), (l', s'))) : vs.length + 1 < 2 ^ 24 := by
  obtain ⟨_, reads⟩ := h.reads
  have size : l.size = vs.length := size_of_holds reads
  simp only [insert, edit, Edit.self_bind, Edit.bind_ok, Edit.focus_ok] at run
  obtain ⟨_, ⟨l₁, s₁⟩, ⟨n₁, copy, rfl⟩, _, ⟨l₂, s₂⟩, ⟨n₂, grow, rfl⟩, -⟩ := run
  obtain ⟨h, mutable, -⟩ := Node.copyOnWrite_octets h copy
  obtain ⟨_, reads⟩ := h.reads
  -- The capacity that was checked counts the bytes, and an element has at least one.
  have fits := Node.reserve_fits (Node.live_of_holds (h.imp_left Node.octets_entails)) mutable grow
  have whole := Header.length_le_bytesFor (l.size + 1) (Scalar.width α) .bytes
  have width := Nat.le_mul_of_pos_right (l.size + 1) (LawfulScalar.positive (α := α))
  rw [reads.2.2.1] at fits
  rw [Layout.dataSize, Header.length] at whole
  rw [Header.maxCapacity] at fits
  omega

theorem ScalarLeaf.insertEach_header {α : Type} [Scalar α] [LawfulScalar α] {l l' : ScalarLeaf α}
    {puts : List (Nat × α)} (sound : s₀.Sound) (created : create s₀ = (.ok l, s))
    (inRange : PutsInRange (fun _ => 1) puts 0)
    (ok : insertEach insert puts (l, s) = (.ok (), (l', s'))) :
    Node.load s'.memory l'.node.ref = l'.node := by
  have start : ∃ vs, vs.length = 0 ∧ s.Holds (holds l vs * 1) :=
    ⟨[], rfl, create_holds (Store.holds_one sound) created⟩
  have kept := insertEach_keeps
    (P := fun l s size => ∃ vs, vs.length = size ∧ s.Holds (holds l vs * 1)) ?_ start inRange ok
  · obtain ⟨_, vs, -, h⟩ := kept
    obtain ⟨_, reads⟩ := h.reads
    exact reads.2.1.load
  · rintro i v l l' s s' _ ⟨vs, rfl, h⟩ inside run
    exact ⟨_, List.length_insertIdx_of_le_length inside _, insert_holds h inside (insert_small h run) run⟩

end ColumnStore
