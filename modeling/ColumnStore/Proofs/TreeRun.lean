import ColumnStore.Proofs.BytesLeaf
import ColumnStore.Proofs.ScalarLeaf
import ColumnStore.Proofs.TreeClear
import ColumnStore.Proofs.TreeUpdate
import ColumnStore.Proofs.Verify

set_option autoImplicit false

/-!
Runs of operations on a tree. The list of its values goes through the same operations, whatever
nodes the tree is made of.
-/
namespace ColumnStore.Tree

/-- Operations of trees with one kind of leaf only. -/
class OwnOps (L : Type) {V : Type} [Leaf L V] [LawfulLeaf L] (X : outParam Type) where
  run : X → Edit (Tree L) Unit
  onList : X → List V → List V
  InRange : X → List V → Prop
  decidableInRange (x : X) (vs : List V) : Decidable (InRange x vs)
  holds {x : X} {t t' : Tree L} {vs : List V} {s s' : Store} {R : Assertion} :
    s.Holds (Tree.holds t vs * R) → vs.length < Slot.countBound → InRange x vs →
      run x (t, s) = (.ok (), (t', s')) →
        t'.maxNodeSize = t.maxNodeSize ∧ s'.Holds (Tree.holds t' (onList x vs) * R)

inductive AdjustOp where
  | adjust (i : Nat) (d : Int64)
  | adjustAll (d : Int64)
  deriving DecidableEq, Repr

instance : OwnOps Node AdjustOp where
  run
    | .adjust i d => IntColumn.adjust i d
    | .adjustAll d => IntColumn.adjustAll d
  onList
    | .adjust i d, vs => vs.modify i (· + d)
    | .adjustAll d, vs => vs.map (· + d)
  InRange
    | .adjust i _, vs => i < vs.length
    | .adjustAll _, _ => True
  decidableInRange x vs := by cases x <;> infer_instance
  holds {x _ _ _ _ _ _} h small inRange ok := by
    cases x with
    | adjust i d => exact IntColumn.adjust_holds h inRange small ok
    | adjustAll d => exact IntColumn.adjustAll_holds h ok

instance {α : Type} [Scalar α] [LawfulScalar α] : OwnOps (ScalarLeaf α) Empty where
  run x := nomatch x
  onList x := nomatch x
  InRange x := nomatch x
  decidableInRange x := nomatch x
  holds {x} := nomatch x

instance : OwnOps BytesLeaf Empty where
  run x := nomatch x
  onList x := nomatch x
  InRange x := nomatch x
  decidableInRange x := nomatch x
  holds {x} := nomatch x

inductive Op (V X : Type) where
  /-- In front of an index, or at the end. -/
  | insert (i : Option Nat) (v : V)
  | add (v : V)
  | set (i : Nat) (v : V)
  /-- At an index, or the last one. -/
  | erase (i : Option Nat)
  | clear
  | own (x : X)

variable {L V X : Type} [Leaf L V] [LawfulLeaf L] [OwnOps L X]

namespace Op

variable (L)

def run : Op V X → Edit (Tree L) Unit
  | insert i v => Tree.insert i v
  | add v => Tree.add v
  | set i v => Tree.set i v
  | erase i => Tree.erase i
  | clear => Tree.clear
  | own x => OwnOps.run V x

def onList : Op V X → List V → List V
  | insert i v, vs => vs.insertIdx (i.getD vs.length) v
  | add v, vs => vs ++ [v]
  | set i v, vs => vs.set i v
  | erase i, vs => vs.eraseIdx (i.getD (vs.length - 1))
  | clear, _ => []
  | own x, vs => OwnOps.onList L x vs

def InRange : Op V X → List V → Prop
  | insert i _, vs => i.getD vs.length ≤ vs.length
  | add _, _ => True
  | set i _, vs => i < vs.length
  | erase i, vs => i.getD (vs.length - 1) < vs.length
  | clear, _ => True
  | own x, vs => OwnOps.InRange L x vs

instance (op : Op V X) (vs : List V) : Decidable (op.InRange L vs) := by
  cases op <;> unfold InRange
  case own x => exact OwnOps.decidableInRange x vs
  all_goals infer_instance

end Op

/-- Every operation is in range, and no list on the way is too long to be counted. -/
def InRange (L : Type) {V X : Type} [Leaf L V] [LawfulLeaf L] [OwnOps L X] :
    List (Op V X) → List V → Prop
  | [], _ => True
  | op :: ops, vs => op.InRange L vs ∧ (op.onList L vs).length < Slot.countBound ∧
      InRange L ops (op.onList L vs)

instance decidableInRange : (ops : List (Op V X)) → (vs : List V) → Decidable (InRange L ops vs)
  | [], _ => .isTrue True.intro
  | op :: ops, vs =>
      have := decidableInRange ops (op.onList L vs)
      inferInstanceAs (Decidable (_ ∧ _ ∧ _))

def onList (L : Type) {V X : Type} [Leaf L V] [LawfulLeaf L] [OwnOps L X] (ops : List (Op V X))
    (vs : List V) : List V :=
  ops.foldl (fun vs op => op.onList L vs) vs

def run : List (Op V X) → Edit (Tree L) Unit
  | [] => pure ()
  | op :: ops => do
      op.run L
      run ops

/-- A tree that was just created, or one loaded from a ref whose stored numbers verify. -/
inductive Start (s : Store) : Tree L → Prop where
  | created {s₀ : Store} {maxNodeSize : Nat} {t : Tree L} (sound : s₀.Sound)
      (run : create maxNodeSize s₀ = (.ok t, s)) : Start s t
  | loaded {maxNodeSize : Nat} {r : Ref} {vs : List V}
      (outlined : s.Holds (outlined (load s.memory maxNodeSize r : Tree L) vs))
      (small : vs.length < Slot.countBound)
      (verifies : (load s.memory maxNodeSize r : Tree L).verify s.memory = true) :
      Start s (load s.memory maxNodeSize r)

/-- What is read from a tree with the values `vs`, also when it is loaded again. -/
structure Shows (m : Memory) (t : Tree L) (vs : List V) : Prop where
  size : t.size m = vs.length
  get : ∀ i (inside : i < vs.length), t.get m i = vs[i]
  verifies : t.verify m = true
  loads : ∀ maxNodeSize, (load m maxNodeSize t.ref : Tree L).toList m = vs

variable {s s' : Store} {t t' : Tree L} {vs : List V} {R : Assertion} {b : Build} {least : Nat}

theorem holds_load {m : Memory} {base : Nat} {own : Set Nat} (maxNodeSize : Nat)
    (h : (holds t vs).holds m base own) : (holds (load m maxNodeSize t.ref : Tree L) vs).holds m base own := by
  have root : Root.load m t.ref = t.root := congrArg Tree.root (load_of_holds h)
  rw [holds, load, root]
  exact h

theorem shows_of_holds (h : s.Holds (holds t vs * R)) (small : vs.length < Slot.countBound) :
    Shows s.memory t vs := by
  obtain ⟨_, here⟩ := h.reads
  exact ⟨size_of_holds here small, fun i => get_of_holds here small, verify_of_holds here small,
    fun maxNodeSize => toList_of_holds (holds_load maxNodeSize here) small⟩

theorem built_create {maxNodeSize : Nat} (sound : s.Sound) (fits : b.fits 0)
    (run : create maxNodeSize s = (.ok t, s')) :
    t.maxNodeSize = maxNodeSize ∧ s'.Holds (built b least t ([] : List V) * 1) := by
  simp only [create, StoreM.bind_ok, StoreM.pure_ok] at run
  obtain ⟨l, _, made, rfl, rfl⟩ := run
  refine ⟨rfl, ?_⟩
  simp only [built, mul_assoc, Store.holds_fact_mul]
  exact ⟨fits, LawfulLeaf.create (Store.holds_one sound) made⟩

theorem holds_create {maxNodeSize : Nat} (sound : s.Sound)
    (run : create maxNodeSize s = (.ok t, s')) :
    t.maxNodeSize = maxNodeSize ∧ s'.Holds (holds t ([] : List V) * 1) := by
  rw [← built_any]
  exact built_create sound trivial run

theorem Start.holds (start : Start s t) :
    s.Holds (Tree.holds t (t.toList s.memory) * 1) ∧ (t.toList s.memory).length < Slot.countBound := by
  obtain ⟨vs, h, small⟩ : ∃ vs, s.Holds (Tree.holds t vs * 1) ∧ vs.length < Slot.countBound := by
    cases start with
    | created sound run => exact ⟨[], (holds_create sound run).2, Nat.two_pow_pos 62⟩
    | loaded outlined small verifies =>
        obtain ⟨sound, own, owns, outline⟩ := outlined
        -- That the numbers verify makes the outline a tree.
        have held := (holds_iff_verify small).mpr ⟨outline, verifies⟩
        exact ⟨_, Store.Holds.of_eq ⟨sound, own, owns, held⟩ (mul_one _).symm, small⟩
  obtain ⟨_, here⟩ := h.reads
  rw [toList_of_holds here small]
  exact ⟨h, small⟩

/-- Every tree has these operations, and they keep to the rule that its nodes are built by. -/
theorem Op.run_built {op : Op V X} (common : ∀ x, op ≠ .own x) (h : s.Holds (built b least t vs * R))
    (small : vs.length < Slot.countBound) (room : 0 < t.maxNodeSize)
    (max : t.maxNodeSize < 2 ^ 24 - 2) (admits : b.Admits t.maxNodeSize) (fits : b.fits 2)
    (atMost : least ≤ 2) (inRange : op.InRange L vs)
    (small' : (op.onList L vs).length < Slot.countBound)
    (ok : op.run L (t, s) = (.ok (), (t', s'))) :
    t'.maxNodeSize = t.maxNodeSize ∧ s'.Holds (built b least t' (op.onList L vs) * R) := by
  cases op with
  | insert i v =>
      rw [onList, List.length_insertIdx_of_le_length inRange] at small'
      exact insert_built h inRange small' room max admits atMost fits ok
  | add v =>
      rw [onList, List.length_append, List.length_singleton] at small'
      -- An addition is an insertion without an index.
      have h := insert_built h (i := none) (Nat.le_refl _) small' room max admits atMost fits ok
      rwa [Option.getD_none, List.insertIdx_length_self] at h
  | set i v => exact set_built h inRange small ok
  | erase i => exact eraseLoose_built h atMost inRange small (fun _ _ => trivial) ok
  | clear => exact clear_built (b.fewer fits (Nat.zero_le 2)) h ok
  | own x => exact absurd rfl (common x)

theorem Op.run_ok {op : Op V X} (h : s.Holds (holds t vs * R)) (small : vs.length < Slot.countBound)
    (room : 0 < t.maxNodeSize) (max : t.maxNodeSize < 2 ^ 24 - 2) (inRange : op.InRange L vs)
    (small' : (op.onList L vs).length < Slot.countBound)
    (ok : op.run L (t, s) = (.ok (), (t', s'))) :
    t'.maxNodeSize = t.maxNodeSize ∧ s'.Holds (Tree.holds t' (op.onList L vs) * R) := by
  by_cases common : ∀ x, op ≠ .own x
  · rw [← built_any] at h ⊢
    exact run_built common h small room max (Build.admits_any _) trivial (Nat.zero_le 2) inRange
      small' ok
  · obtain ⟨x, rfl⟩ := not_forall_not.mp common
    exact OwnOps.holds h small inRange ok

theorem run_holds {ops : List (Op V X)} (h : s.Holds (holds t vs * R))
    (small : vs.length < Slot.countBound) (room : 0 < t.maxNodeSize)
    (max : t.maxNodeSize < 2 ^ 24 - 2) (inRange : InRange L ops vs)
    (ok : run ops (t, s) = (.ok (), (t', s'))) :
    s'.Holds (holds t' (onList L ops vs) * R) ∧ (onList L ops vs).length < Slot.countBound := by
  induction ops generalizing t s vs with
  | nil =>
      obtain ⟨-, same⟩ := Edit.pure_ok.mp ok
      cases same
      exact ⟨h, small⟩
  | cons op ops ih =>
      rw [run, Edit.bind_ok] at ok
      obtain ⟨_, ⟨t₁, s₁⟩, first, rest⟩ := ok
      obtain ⟨valid, small', inRange⟩ := inRange
      obtain ⟨same, h⟩ := op.run_ok h small room max valid small' first
      exact ih h small' (same ▸ room) (same ▸ max) inRange rest

theorem inRange_append {before after : List (Op V X)} (inRange : InRange L (before ++ after) vs) :
    InRange L before vs := by
  induction before generalizing vs with
  | nil => exact True.intro
  | cons op before ih => exact ⟨inRange.1, inRange.2.1, ih inRange.2.2⟩

theorem run_append {before after : List (Op V X)} {p p' : Tree L × Store}
    (ok : run (before ++ after) p = (.ok (), p')) : ∃ q, run before p = (.ok (), q) := by
  induction before generalizing p with
  | nil => exact ⟨p, rfl⟩
  | cons op before ih =>
      rw [List.cons_append, run, Edit.bind_ok] at ok
      obtain ⟨_, p₁, first, rest⟩ := ok
      obtain ⟨q, reached⟩ := ih rest
      exact ⟨q, Edit.bind_ok.mpr ⟨(), p₁, first, reached⟩⟩

/-- The last insertion splits the leaf that is the root. -/
def mixedOps : List (Op Int64 AdjustOp) :=
  [.add 3, .add 9, .own (.adjustAll 1), .erase (some 0), .add 300, .insert (some 1) 7]

/-- After every step of a run that succeeds, the free chunks of the slabs are apart from one another
and from the blocks of the tree: none of them was released twice, or while it was in use. -/
theorem run_frees_once {before after : List (Op V X)} (start : Start s t)
    (room : 0 < t.maxNodeSize) (max : t.maxNodeSize < 2 ^ 24 - 2)
    (inRange : InRange L (before ++ after) (t.toList s.memory))
    (ok : run (before ++ after) (t, s) = (.ok (), (t', s'))) :
    ∃ t₁ s₁, run before (t, s) = (.ok (), (t₁, s₁)) ∧
      s₁.free.Pairwise (fun c d => Disjoint c.cells d.cells) ∧
      ∃ own, (holds t₁ (onList L before (t.toList s.memory))).holds s₁.memory s₁.baseline own ∧
        Disjoint own s₁.free.cells := by
  obtain ⟨⟨t₁, s₁⟩, first⟩ := run_append ok
  obtain ⟨h, small⟩ := start.holds
  obtain ⟨h, -⟩ := run_holds h small room max (inRange_append inRange) first
  obtain ⟨sound, own, owns, here⟩ := h.left
  exact ⟨t₁, s₁, first, sound.free.apart, own, here, owns.apart.mono_right Set.subset_union_left⟩

end ColumnStore.Tree
