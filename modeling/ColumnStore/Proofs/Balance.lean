import ColumnStore.Proofs.TreeRun
import ColumnStore.Tree.Shape

set_option autoImplicit false

/-!
Trees stay balanced. However they were edited, all leaves are at one depth, no node is larger than
it may be, a root that is an inner node branches, and inner nodes count what is below them.
-/
namespace ColumnStore

open Branch (Full inner values sizes start)

namespace Shape

mutual

/-- The elements in the leaves. -/
def elements : Shape → Nat
  | .leaf size => size
  | .compact _ _ children => elementsIn children
  | .general _ _ children => elementsIn children

def elementsIn : List Shape → Nat
  | [] => 0
  | c :: cs => c.elements + elementsIn cs

end

def children : Shape → List Shape
  | .leaf _ => []
  | .compact _ _ children => children
  | .general _ _ children => children

/-- A node below the root with all leaves so many levels under it: neither it nor a node below it is
empty or has more than `maxNodeSize` elements or children, and what inner nodes store agrees with
the leaves. -/
def Level (maxNodeSize : Nat) : Nat → Shape → Prop
  | 0, .leaf size => 0 < size ∧ size ≤ maxNodeSize
  | height + 1, .compact perChild total children =>
      children ≠ [] ∧ children.length ≤ maxNodeSize ∧ (∀ c ∈ children, Level maxNodeSize height c) ∧
        (∀ c ∈ children.dropLast, c.elements = perChild) ∧ total = (children.map elements).sum
  | height + 1, .general ends total children =>
      children ≠ [] ∧ children.length ≤ maxNodeSize ∧ (∀ c ∈ children, Level maxNodeSize height c) ∧
        ends = (List.range (children.length - 1)).map
          (fun i => start (children.map elements) (i + 1)) ∧
        ends.Pairwise (· < ·) ∧ total = (children.map elements).sum
  | _, _ => False

/-- A whole tree: a root without children may be any leaf, and another one has two or more. -/
def Balanced (maxNodeSize : Nat) (shape : Shape) : Prop :=
  match shape with
  | .leaf size => size ≤ maxNodeSize
  | shape => 2 ≤ shape.children.length ∧ ∃ height, shape.Level maxNodeSize height

theorem elementsIn_eq (shapes : List Shape) : elementsIn shapes = (shapes.map elements).sum := by
  induction shapes with
  | nil => rfl
  | cons c cs ih => rw [elementsIn, ih, List.map_cons, List.sum_cons]

theorem starts_ascend {sizes : List Nat} (positive : ∀ a ∈ sizes, 0 < a) :
    ((List.range (sizes.length - 1)).map fun i => start sizes (i + 1)).Pairwise (· < ·) := by
  rw [List.pairwise_map]
  refine List.pairwise_lt_range.imp_of_mem ?_
  intro i j inside _ lt
  rw [List.mem_range] at inside
  exact Branch.start_lt positive (Nat.succ_lt_succ lt) (by omega)

end Shape

/-! ### The shape that an assertion tells -/

section Read

variable {V : Type} {m : Memory} {base : Nat} {own : Set Nat} {n : Node} {o : Option Node}
  {kids : List (Ref × List V)} {leafSize : Ref → Nat} {fuel : Nat}

/-- The shape of an inner node follows from its children; in the compact form the number of
elements of each is read. -/
def Branch.innerShape (m : Memory) (n : Node) (o : Option Node) (kids : List (Ref × List V))
    (child : Ref → Shape) : Shape :=
  let children := (refs kids).map child
  match o with
  | some _ => .general ((List.range (kids.length - 1)).map fun i => start (sizes kids) (i + 1))
      (values kids).length children
  | none => .compact (perChild m n) (values kids).length children

theorem Branch.children_innerShape {child : Ref → Shape} :
    (innerShape m n o kids child).children = (refs kids).map child := by
  cases o <;> rfl

theorem Branch.shapeWithin_inner (node : (inner n o kids).holds m base own)
    (bounds : ∀ k ∈ kids, k.1 < Store.addressSpace)
    (small : (values kids).length < Slot.countBound) :
    shapeWithin m leafSize (fuel + 1) n.ref =
      innerShape m n o kids (shapeWithin m leafSize fuel) := by
  have children : (List.range (childCount n)).map
      (fun c => shapeWithin m leafSize fuel (child m n c)) =
      (refs kids).map (shapeWithin m leafSize fuel) := by
    rw [childCount_of_inner node]
    apply List.ext_getElem (by simp)
    intro i _ inside
    rw [List.length_map, length_refs] at inside
    simp only [List.getElem_map, List.getElem_range, refs,
      child_of_inner node inside (bounds _ (List.getElem_mem inside))]
  rw [shapeWithin, if_pos (Tree.isInner_inner node)]
  simp only [Tree.load_inner node, children, offsets_of_inner node, total_of_inner node small]
  cases o with
  | none => rfl
  | some o =>
      have size : o.size = kids.length - 1 := by simpa using size_of_offsets node
      simp only [size, innerShape]
      congr 1
      apply List.map_congr_left
      intro i inside
      rw [List.mem_range] at inside
      exact endAt_of_inner node rfl (by omega) small

/-- Above children that are level a node is level. -/
theorem Shape.level_inner {child : Ref → Shape} {maxNodeSize depth : Nat}
    (node : (inner n o kids).holds m base own) (ne : kids ≠ []) (full : Full kids)
    (most : kids.length ≤ maxNodeSize) (each : ∀ k ∈ kids,
      (child k.1).Level maxNodeSize depth ∧ (child k.1).elements = k.2.length) :
    (Branch.innerShape m n o kids child).Level maxNodeSize (depth + 1) ∧
      (Branch.innerShape m n o kids child).elements = (values kids).length := by
  have counts : ((Branch.refs kids).map child).map elements = sizes kids := by
    rw [Branch.refs, List.map_map, List.map_map]
    exact List.map_congr_left fun k inside => (each k inside).2
  have total : (values kids).length = (((Branch.refs kids).map child).map elements).sum := by
    rw [counts, Branch.sum_sizes]
  have some : (Branch.refs kids).map child ≠ [] := by simpa [Branch.refs] using ne
  have most : ((Branch.refs kids).map child).length ≤ maxNodeSize := by simpa using most
  have level : ∀ c ∈ (Branch.refs kids).map child, c.Level maxNodeSize depth := by
    simp only [Branch.refs, List.forall_mem_map]
    exact fun k inside => (each k inside).1
  cases o with
  | none =>
      have regular := Branch.regular_of_inner node rfl
      refine ⟨⟨some, most, level, ?_, total⟩, ?_⟩
      · intro c inside
        apply regular
        rw [← counts, ← List.map_dropLast]
        exact List.mem_map_of_mem inside
      · rw [Branch.innerShape, elements, elementsIn_eq, total]
  | some o =>
      refine ⟨⟨some, most, level, ?_, ?_, total⟩, ?_⟩
      · rw [counts, List.length_map, Branch.length_refs]
      · simpa using starts_ascend (Branch.full_iff_sizes.mp full)
      · rw [Branch.innerShape, elements, elementsIn_eq, total]

theorem Shape.balanced_of_level {shape : Shape} {maxNodeSize depth : Nat}
    (level : shape.Level maxNodeSize (depth + 1)) (many : 2 ≤ shape.children.length) :
    shape.Balanced maxNodeSize := by
  cases shape with
  | leaf size => cases level
  | compact perChild total children => exact ⟨many, _, level⟩
  | general ends total children => exact ⟨many, _, level⟩

end Read

namespace Tree

variable {L V X : Type} [Leaf L V] {m : Memory} {base : Nat} {own : Set Nat} {s s' : Store}
  {t t' : Tree L} {vs : List V} {R : Assertion} {r : Ref} {n : Node} {depth fuel maxNodeSize : Nat}

section Read

variable [ListLeaf L] {b : Build} {least : Nat}

theorem shapeWithin_leaf (h : (leafHolds L r vs).holds m base own) :
    Branch.shapeWithin m (fun r => Leaf.size (Leaf.load m r : L)) fuel r = .leaf vs.length := by
  obtain ⟨l, rfl, held⟩ := holds_leaf.mp h
  cases fuel <;> simp [Branch.shapeWithin, ListLeaf.outer held, ListLeaf.load held,
    ListLeaf.size held]

theorem shapeWithin_over (h : (builtOver b least (builtAt b L depth) n vs).holds m base own)
    (small : vs.length < Slot.countBound) (leafSize : Ref → Nat) (fuel : Nat) :
    ∃ o kids x, values kids = vs ∧ kids ≠ [] ∧ Full kids ∧ least ≤ kids.length ∧
      b.fits kids.length ∧ (inner n o kids).holds m base x ∧
      (∀ k ∈ kids, ∃ y, (builtAt b L depth k.1 k.2).holds m base y) ∧
      Branch.shapeWithin m leafSize (fuel + 1) n.ref =
        Branch.innerShape m n o kids (Branch.shapeWithin m leafSize fuel) := by
  obtain ⟨count, branch⟩ := holds_builtOver.mp h
  obtain ⟨o, kids, rfl, ne, full, x, y, rfl, -, node, below⟩ := holds_over.mp branch
  rw [Branch.childCount_of_inner node] at count
  have each (k) (inside : k ∈ kids) := forest_mem inside below
  refine ⟨o, kids, x, rfl, ne, full, count.1, count.2, node, each,
    Branch.shapeWithin_inner node (fun k inside => ?_) small⟩
  obtain ⟨_, kid⟩ := each k inside
  exact (ref_treeAt (treeAt_of_built kid)).2

theorem level_of_built (h : (builtAt (.balanced maxNodeSize) L depth r vs).holds m base own)
    (some : vs ≠ []) (small : vs.length < Slot.countBound) (deep : depth ≤ fuel) :
    let shape := Branch.shapeWithin m (fun r => Leaf.size (Leaf.load m r : L)) fuel r
    shape.Level maxNodeSize depth ∧ shape.elements = vs.length := by
  induction depth generalizing fuel r vs own with
  | zero =>
      obtain ⟨⟨-, fits⟩, leaf⟩ := holds_builtLeaf.mp h
      rw [shapeWithin_leaf leaf]
      exact ⟨⟨List.length_pos_iff.mpr some, fits⟩, rfl⟩
  | succ depth ih =>
      rcases builtAt_cases h with leaf | ⟨below, n, same, rfl, branch⟩
      · exact absurd ((holds_builtLeaf.mp leaf).1.1 trivial) (Nat.succ_ne_zero depth)
      · obtain rfl : depth = below := Nat.succ.inj same
        obtain ⟨fuel, rfl⟩ : ∃ k, fuel = k + 1 := Nat.exists_eq_succ_of_ne_zero (by omega)
        obtain ⟨o, kids, x, rfl, ne, full, -, most, node, each, shape⟩ :=
          shapeWithin_over branch small _ fuel
        rw [shape]
        refine Shape.level_inner node ne full most fun k inside => ?_
        obtain ⟨_, kid⟩ := each k inside
        exact ih kid (full k inside) (Nat.lt_of_le_of_lt (length_le_values inside) small)
          (Nat.le_of_succ_le_succ deep)

theorem balanced_of_built (h : s.Holds (built (.balanced maxNodeSize) 2 t vs * R))
    (small : vs.length < Slot.countBound) : (t.shape s.memory).Balanced maxNodeSize := by
  cases root : t.root with
  | leaf l =>
      obtain ⟨fits, h⟩ := leaf_of_built h root
      obtain ⟨_, held⟩ := h.reads
      rw [shape, ref, root, shapeWithin_leaf (holds_leaf.mpr ⟨l, rfl, held⟩)]
      exact fits
  | inner n =>
      obtain ⟨depth, deep, h⟩ := over_of_built_mul h root
      obtain ⟨_, branch⟩ := h.reads
      obtain ⟨fuel, bound⟩ : ∃ k, Node.depthBound s.memory = k + 1 :=
        Nat.exists_eq_succ_of_ne_zero (by omega)
      rw [shape, ref, root, bound]
      obtain ⟨o, kids, x, rfl, ne, full, many, most, node, each, shape⟩ :=
        shapeWithin_over branch small (fun r => Leaf.size (Leaf.load s.memory r : L)) fuel
      rw [shape]
      have level : ∀ k ∈ kids, Shape.Level maxNodeSize depth _ ∧ _ := fun k inside => by
        obtain ⟨_, kid⟩ := each k inside
        exact level_of_built kid (full k inside)
          (Nat.lt_of_le_of_lt (length_le_values inside) small) (show depth ≤ fuel by omega)
      refine Shape.balanced_of_level (Shape.level_inner node ne full most level).1 ?_
      · rw [Branch.children_innerShape, List.length_map, Branch.length_refs]
        exact many

end Read

variable [LawfulLeaf L] [OwnOps L X]

theorem run_built {b : Build} {least : Nat} {ops : List (Op V X)} (common : ∀ x, .own x ∉ ops)
    (h : s.Holds (built b least t vs * R)) (small : vs.length < Slot.countBound)
    (room : 0 < t.maxNodeSize) (max : t.maxNodeSize < 2 ^ 24 - 2)
    (admits : b.Admits t.maxNodeSize) (fits : b.fits 2) (atMost : least ≤ 2)
    (inRange : InRange L ops vs) (ok : run ops (t, s) = (.ok (), (t', s'))) :
    s'.Holds (built b least t' (onList L ops vs) * R) ∧
      (onList L ops vs).length < Slot.countBound := by
  induction ops generalizing t s vs with
  | nil =>
      obtain ⟨-, same⟩ := Edit.pure_ok.mp ok
      cases same
      exact ⟨h, small⟩
  | cons op ops ih =>
      rw [run, Edit.bind_ok] at ok
      obtain ⟨_, ⟨t₁, s₁⟩, first, rest⟩ := ok
      obtain ⟨valid, small', inRange⟩ := inRange
      have one (x) : op ≠ .own x := fun same => common x (by simp [same])
      obtain ⟨same, h⟩ := op.run_built one h small room max admits fits atMost valid small' first
      exact ih (fun x inside => common x (List.mem_cons_of_mem _ inside)) h small' (same ▸ room)
        (same ▸ max) (same ▸ admits) inRange rest

/-- A tree that was created and then edited is balanced. -/
theorem run_balanced {s₀ : Store} {ops : List (Op V X)} (sound : s₀.Sound)
    (created : create maxNodeSize s₀ = (.ok t, s)) (room : 2 ≤ maxNodeSize)
    (max : maxNodeSize < 2 ^ 24 - 2) (common : ∀ x, .own x ∉ ops) (inRange : InRange L ops [])
    (ok : run ops (t, s) = (.ok (), (t', s'))) : (t'.shape s'.memory).Balanced maxNodeSize := by
  obtain ⟨same, h⟩ : t.maxNodeSize = maxNodeSize ∧
      s.Holds (built (.balanced maxNodeSize) 2 t ([] : List V) * 1) :=
    built_create sound (Nat.zero_le _) created
  obtain ⟨h, small⟩ := run_built common h (Nat.two_pow_pos 62) (by omega) (by omega)
    (same ▸ Build.admits_balanced _) room (Nat.le_refl 2) inRange ok
  exact balanced_of_built h small

theorem exists_run {maxNodeSize : Nat} {ops : List (Op Int64 AdjustOp)}
    (succeeds : ((do Edit.on (← (create maxNodeSize : StoreM (Tree Node))) (run ops) :
      StoreM (Unit × Tree Node)) (.empty {})).1.isOk = true) :
    ∃ (t t' : Tree Node) (s s' : Store), create maxNodeSize (.empty {}) = (.ok t, s) ∧
      run ops (t, s) = (.ok (), (t', s')) := by
  cases result : (do Edit.on (← (create maxNodeSize : StoreM (Tree Node))) (run ops) :
      StoreM (Unit × Tree Node)) (.empty {}) with
  | mk r s' =>
      cases r with
      | error e =>
          rw [result] at succeeds
          cases succeeds
      | ok x =>
          obtain ⟨t, s, created, ran⟩ := StoreM.bind_ok.mp result
          exact ⟨t, x.2, s, s', created, Edit.on_ok.mp ran⟩

/-- The last insertion puts a root over the leaf that splits. -/
def branchingOps : List (Op Int64 AdjustOp) :=
  [.add 3, .add 9, .set 0 4, .erase (some 0), .add 300, .insert (some 1) 7]

theorem run_balanced_branching : ∃ (t t' : Tree Node) (s s' : Store),
    create 2 (.empty {}) = (.ok t, s) ∧ run branchingOps (t, s) = (.ok (), (t', s')) ∧
      (t'.shape s'.memory).Balanced 2 := by
  obtain ⟨t, t', s, s', created, ok⟩ := exists_run
    (show ((do Edit.on (← (create 2 : StoreM (Tree Node))) (run branchingOps) :
      StoreM (Unit × Tree Node)) (.empty {})).1.isOk = true by decide +kernel)
  refine ⟨t, t', s, s', created, ok, ?_⟩
  exact run_balanced (Store.sound_empty {}) created (by decide) (by decide)
    (by simp [branchingOps]) (by decide) ok

end Tree

end ColumnStore
