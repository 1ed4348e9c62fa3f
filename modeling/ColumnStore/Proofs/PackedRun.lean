import ColumnStore.Proofs.Packed

set_option autoImplicit false

/-!
Runs of operations on a node of packed integers. The list of its elements goes through the same
operations, and the header in memory always says what the node says.
-/
namespace ColumnStore.Node

inductive Op where
  | add (v : Int64)
  | insert (i : Nat) (v : Int64)
  | set (i : Nat) (v : Int64)
  | erase (i : Nat)
  | eraseRange (start stop : Nat)
  | truncate (size : Nat)
  | clear
  | setAllToZero
  | adjust (i : Nat) (d : Int64)
  | adjustRange (start stop : Nat) (d : Int64)
  | adjustAtLeast (limit d : Int64)
  | ensureWidth (v : Int64)
  | setContext (value : Bool)
  | copyOnWrite
  deriving DecidableEq, Repr

namespace Op

def run : Op → Edit Node Unit
  | add v => Node.add v
  | insert i v => Node.insert i v
  | set i v => Node.set i v
  | erase i => Node.erase i
  | eraseRange start stop => Node.eraseRange start stop
  | truncate size => Node.truncate size
  | clear => Node.clear
  | setAllToZero => Node.setAllToZero
  | adjust i d => Node.adjust i d
  | adjustRange start stop d => Node.adjustRange start stop d
  | adjustAtLeast limit d => Node.adjustAtLeast limit d
  | ensureWidth v => Node.ensureWidth v
  | setContext value => Node.setContext value
  | copyOnWrite => Node.copyOnWrite

def onList : Op → List Int64 → List Int64
  | add v, vs => vs ++ [v]
  | insert i v, vs => vs.insertIdx i v
  | set i v, vs => vs.set i v
  | erase i, vs => vs.eraseIdx i
  | eraseRange start stop, vs => vs.take start ++ vs.drop stop
  | truncate size, vs => vs.take size
  | clear, _ => []
  | setAllToZero, vs => vs.map fun _ => 0
  | adjust i d, vs => vs.modify i (· + d)
  | adjustRange start stop d, vs =>
      vs.mapIdx fun i v => if start ≤ i ∧ i < stop then v + d else v
  | adjustAtLeast limit d, vs => vs.map fun v => if limit ≤ v then v + d else v
  | ensureWidth _, vs => vs
  | setContext _, vs => vs
  | copyOnWrite, vs => vs

/-- The operation takes the width back to zero. -/
def resets : Op → Bool
  | truncate size => size = 0
  | clear | setAllToZero => true
  | _ => false

/-- The values that the operation writes to the list or makes room for. -/
def written : Op → List Int64 → List Int64
  | add v, _ | insert _ v, _ | set _ v, _ | ensureWidth v, _ => [v]
  | adjust i d, vs => vs[i]?.toList.map (· + d)
  | adjustRange start stop d, vs => sumsBetween start stop d vs
  | adjustAtLeast limit d, vs => (vs.filter (limit ≤ ·)).map (· + d)
  | _, _ => []

def InRange : Op → List Int64 → Prop
  | insert i _, vs => i ≤ vs.length
  | set i _, vs => i < vs.length
  | erase i, vs => i < vs.length
  | eraseRange start stop, vs => start ≤ stop ∧ stop ≤ vs.length
  | truncate size, vs => size ≤ vs.length
  | adjust i _, vs => i < vs.length
  | adjustRange _ stop _, vs => stop ≤ vs.length
  | _, _ => True

instance (op : Op) (vs : List Int64) : Decidable (op.InRange vs) := by
  cases op <;> unfold InRange <;> infer_instance

end Op

/-- The largest number of elements the header can hold. -/
def maxSize : Nat := 0xFFFFFF

/-- Every operation is in range, and no list on the way is too long. -/
def InRange : List Op → List Int64 → Prop
  | [], _ => True
  | op :: ops, vs => op.InRange vs ∧ (op.onList vs).length ≤ maxSize ∧ InRange ops (op.onList vs)

instance decidableInRange : (ops : List Op) → (vs : List Int64) → Decidable (InRange ops vs)
  | [], _ => .isTrue True.intro
  | op :: ops, vs =>
      have := decidableInRange ops (op.onList vs)
      inferInstanceAs (Decidable (_ ∧ _ ∧ _))

def onList (ops : List Op) (vs : List Int64) : List Int64 := ops.foldl (fun vs op => op.onList vs) vs

def run : List Op → Edit Node Unit
  | [] => pure ()
  | op :: ops => do
      op.run
      run ops

/-- A node that was just created, or one found in the read-only image. -/
inductive Fresh (s : Store) : Node → Prop where
  | created {s₀ : Store} {role : Role} {n : Node} (sound : s₀.Sound)
      (run : createPacked role s₀ = (.ok n, s)) : Fresh s n
  | attached {r : Ref} (sound : s.Sound) (aligned : 8 ∣ r) (positive : 0 < r)
      (layout : (load s.memory r).head.layout = .bits)
      (fits : (load s.memory r).byteSize ≤ Header.maxCapacity)
      (image : r + (load s.memory r).byteSize ≤ s.baseline) : Fresh s (load s.memory r)

variable {s s' : Store} {n n' : Node} {vs : List Int64}

theorem Fresh.packed (fresh : Fresh s n) : Packed s n (n.toList s.memory) := by
  cases fresh with
  | created sound run =>
      obtain ⟨packed, -⟩ := createPacked_ok sound run
      rw [packed.list]
      exact packed
  | attached sound aligned positive layout fits image =>
      rename_i r
      have header := (load s.memory r).length_le_byteSize
      have below : r < s.baseline := Nat.lt_of_lt_of_le
        (Nat.lt_add_of_pos_right (Nat.lt_of_lt_of_le (by decide) header)) image
      have nothing : (load s.memory r).region s.baseline = ∅ := region_image below
      refine ⟨⟨sound, nothing ▸ s.owns_empty, ?_⟩, layout, rfl⟩
      have readOnly : ¬ s.baseline ≤ r := Nat.not_le_of_lt below
      have bound : r < Store.addressSpace :=
        Nat.lt_of_lt_of_le below (Nat.le_trans sound.order sound.bound)
      exact ⟨rfl, aligned, positive, bound, fits, fun _ => image,
        fun mutable => absurd mutable readOnly, fun mutable => absurd mutable readOnly,
        fun mutable => absurd mutable readOnly⟩

/-- One operation raises the width to fit what it writes, or resets it. -/
theorem Op.run_lists {op : Op} (lists : Lists s n vs) (inRange : op.InRange vs)
    (ok : op.run (n, s) = (.ok (), (n', s'))) :
    Reached s n s' n' (op.onList vs) (if op.resets then 0 else Width.raise n.width (op.written vs)) := by
  cases op with
  | add v => exact (add_lists lists ok).1
  | insert i v => exact (insert_lists lists inRange ok).1
  | set i v => exact (set_lists lists inRange ok).1
  | erase i => exact (erase_lists lists inRange ok).1
  | eraseRange start stop => exact (eraseRange_lists lists inRange.1 inRange.2 ok).1
  | truncate size =>
      have reached := truncate_lists lists inRange ok
      by_cases empty : size = 0
      · simpa [resets, onList, empty] using reached
      · simpa [resets, onList, written, empty] using reached
  | clear => exact truncate_lists lists (Nat.zero_le _) ok
  | setAllToZero =>
      rw [onList, List.map_const']
      exact setAllToZero_lists lists ok
  | adjust i d =>
      have inside : i < vs.length := inRange
      rw [written, List.getElem?_eq_getElem inside]
      exact (adjust_lists lists inside ok).1
  | adjustRange start stop d => exact adjustRange_lists lists inRange ok
  | adjustAtLeast limit d => exact adjustAtLeast_lists lists ok
  | ensureWidth v => exact (ensureWidth_lists lists ok).1
  | setContext value => exact setContext_lists lists ok
  | copyOnWrite => exact (copyOnWrite_lists lists ok).1

/-- One operation does to the node what it does to the list. -/
theorem Op.run_ok {op : Op} (packed : Packed s n vs) (inRange : op.InRange vs)
    (small : (op.onList vs).length ≤ maxSize) (ok : op.run (n, s) = (.ok (), (n', s'))) :
    Edited s n s' n' (op.onList vs) :=
  (op.run_lists packed.lists inRange ok).edited packed (Nat.lt_of_le_of_lt small (by decide))

theorem run_edited {ops : List Op} (packed : Packed s n vs) (inRange : InRange ops vs)
    (ok : run ops (n, s) = (.ok (), (n', s'))) : Edited s n s' n' (onList ops vs) := by
  induction ops generalizing s n vs with
  | nil =>
      obtain ⟨-, same⟩ := Edit.pure_ok.mp ok
      cases same
      exact packed.edited
  | cons op ops ih =>
      rw [run, Edit.bind_ok] at ok
      obtain ⟨_, ⟨n₁, s₁⟩, first, rest⟩ := ok
      have edited := op.run_ok packed inRange.1 inRange.2.1 first
      exact edited.trans (ih edited.packed inRange.2.2 rest)

theorem inRange_append {before after : List Op} (inRange : InRange (before ++ after) vs) :
    InRange before vs := by
  induction before generalizing vs with
  | nil => exact True.intro
  | cons op before ih => exact ⟨inRange.1, inRange.2.1, ih inRange.2.2⟩

theorem run_append {before after : List Op} {p p' : Node × Store}
    (ok : run (before ++ after) p = (.ok (), p')) : ∃ q, run before p = (.ok (), q) := by
  induction before generalizing p with
  | nil => exact ⟨p, rfl⟩
  | cons op before ih =>
      rw [List.cons_append, run, Edit.bind_ok] at ok
      obtain ⟨_, p₁, first, rest⟩ := ok
      obtain ⟨q, reached⟩ := ih rest
      exact ⟨q, Edit.bind_ok.mpr ⟨(), p₁, first, reached⟩⟩

/-- After every step of a run that succeeds, the elements are those of the list, and a node loaded
from the same ref is the node itself. -/
theorem run_refines_list {before after : List Op} (fresh : Fresh s n)
    (inRange : InRange (before ++ after) (n.toList s.memory))
    (ok : run (before ++ after) (n, s) = (.ok (), (n', s'))) :
    ∃ n₁ s₁, run before (n, s) = (.ok (), (n₁, s₁)) ∧
      n₁.toList s₁.memory = onList before (n.toList s.memory) ∧
      load s₁.memory n₁.ref = n₁ := by
  obtain ⟨⟨n₁, s₁⟩, first⟩ := run_append ok
  have edited := run_edited fresh.packed (inRange_append inRange) first
  exact ⟨n₁, s₁, first, edited.packed.list, edited.packed.live.stored.load⟩

/-- Three widths, an insertion between elements and a change of the flag. -/
def mixedOps : List Op := [.add 3, .add 300, .insert 1 (-70000), .adjust 0 5, .setContext true]

theorem run_refines_list_mixed :
    ∃ n s n₁ s₁, createPacked .plain (.empty {}) = (.ok n, s) ∧
      run mixedOps (n, s) = (.ok (), (n₁, s₁)) ∧ n₁.toList s₁.memory = [8, -70000, 300] ∧
      load s₁.memory n₁.ref = n₁ := by
  have succeeds : ((do Edit.on (← createPacked .plain) (run mixedOps) : StoreM (Unit × Node))
      (.empty {})).1.isOk = true := by decide +kernel
  cases result : (do Edit.on (← createPacked .plain) (run mixedOps) : StoreM (Unit × Node))
      (.empty {}) with
  | mk r t =>
      cases r with
      | error e =>
          rw [result] at succeeds
          cases succeeds
      | ok x =>
          obtain ⟨n, s, created, ran⟩ := StoreM.bind_ok.mp result
          have ok := Edit.on_ok.mp ran
          have sound := Store.sound_empty {}
          have empty := (createPacked_ok sound created).1.list
          have inRange : InRange (mixedOps ++ []) (n.toList s.memory) := by
            rw [empty]
            decide
          obtain ⟨n₁, s₁, first, list, load⟩ :=
            run_refines_list (.created sound created) inRange ok
          rw [empty] at list
          exact ⟨n, s, n₁, s₁, created, first, list, load⟩

end ColumnStore.Node
