import ColumnStore.Proofs.Binding
import ColumnStore.Proofs.Ledger

set_option autoImplicit false

/-!
How many bytes new things take from the store. A node that cannot be made takes nothing. Of a thing
of several nodes, those made before the failure are lost. A check on an empty table gives the whole
table back, whether it succeeds or fails.
-/
namespace ColumnStore

/-! ### Taking and giving back -/

/-- The bytes of so many new nodes. -/
def newBytes (nodes : Nat) : Int := Header.initialCapacity * nodes

@[simp] theorem newBytes_zero : newBytes 0 = 0 := rfl

theorem newBytes_add (m n : Nat) : newBytes (m + n) = newBytes m + newBytes n := by
  simp only [newBytes, Int.natCast_add, mul_add]

namespace StoreM

/-- A success takes the bytes of `nodes` new nodes. A failure has taken those of as many nodes as
`lost` tells, and nobody knows of them. -/
def Takes {α : Type} (x : StoreM α) (nodes : Nat) (lost : Nat → Prop) : Prop :=
  ∀ ⦃s : Store⦄ ⦃R : Assertion⦄, s.Holds R → x.Ends s
    (fun _ s' => s'.taken = s.taken + newBytes nodes)
    fun _ s' => ∃ kept, lost kept ∧ s'.taken = s.taken + newBytes kept

/-- Freeing what `A` says gives the bytes of so many new nodes back. -/
def Returns (x : StoreM Unit) (nodes : Nat) (A : Assertion) : Prop :=
  ∀ ⦃s : Store⦄ ⦃R : Assertion⦄, s.Holds (A * R) → (x s).2.taken + newBytes nodes = s.taken

variable {α β : Type} {x : StoreM α} {m n : Nat} {lost lost' all : Nat → Prop} {A B : Assertion}
  {s s' : Store} {R : Assertion}

theorem Takes.made {a : α} (takes : x.Takes n lost) (h : s.Holds R) (run : x s = (.ok a, s')) :
    s'.taken = s.taken + newBytes n := by
  have ends := takes h
  rwa [Ends, run] at ends

/-- What is taken, beside what is still held. -/
theorem Takes.beside (takes : x.Takes n lost) (spares : ∀ R, x.Spares (·.Holds R))
    (h : s.Holds R) : x.Ends s (fun _ s' => s'.Holds R ∧ s'.taken = s.taken + newBytes n)
      fun _ s' => ∃ kept, lost kept ∧ s'.taken = s.taken + newBytes kept := by
  have ends := takes h
  have held := (spares R s h).1
  rw [Ends] at ends ⊢
  split
  next a s' run =>
    rw [run] at ends held
    exact ⟨held, ends⟩
  next e s' run => rwa [run] at ends

theorem Takes.bind {f : α → StoreM β} (first : x.Takes m lost)
    (spares : ∀ R, x.Spares (·.Holds R)) (next : ∀ a, (f a).Takes n lost')
    (early : ∀ k, lost k → all k) (late : ∀ k, lost' k → all (m + k)) :
    (x >>= f).Takes (m + n) all := by
  intro s R h
  refine ((first.beside spares h).mono (fun _ _ done => done) ?_).bind fun a s' ⟨held, took⟩ =>
    (next a held).mono (fun _ _ took' => ?_) ?_
  · rintro _ _ ⟨kept, known, taken⟩
    exact ⟨kept, early kept known, taken⟩
  · rw [took', took, newBytes_add, Int.add_assoc]
  · rintro _ _ ⟨kept, known, taken⟩
    exact ⟨m + kept, late kept known, by rw [taken, took, newBytes_add, Int.add_assoc]⟩

theorem Takes.map (takes : x.Takes n lost) (f : α → β) : (f <$> x).Takes n lost := by
  rw [← bind_pure_comp]
  exact fun s R h => (takes h).bind fun _ _ took => .pure took

theorem Takes.pure (a : α) : (Pure.pure a : StoreM α).Takes 0 lost :=
  fun _ _ _ => .pure (Int.add_zero _).symm

theorem Takes.throw (e : Error) (none : lost 0) : (MonadExcept.throw e : StoreM α).Takes 0 lost :=
  fun _ _ _ => ⟨0, none, (Int.add_zero _).symm⟩

theorem Takes.lift (e : Except Error α) (none : lost 0) : (liftM e : StoreM α).Takes 0 lost := by
  cases e with
  | ok a => exact .pure a
  | error e => exact .throw e none

/-- What is looked up first is known afterwards. -/
theorem Takes.lift_bind {e : Except Error α} {f : α → StoreM β} (none : lost 0)
    (next : ∀ a, e = .ok a → (f a).Takes n lost) : ((liftM e : StoreM α) >>= f).Takes n lost := by
  cases e with
  | ok a => exact next a rfl
  | error e => exact fun _ _ _ => ⟨0, none, (Int.add_zero _).symm⟩

theorem Takes.read_bind {g : Memory → α} {f : α → StoreM β} (next : ∀ a, (f a).Takes n lost) :
    (StoreM.read g >>= f).Takes n lost := by
  intro s R h
  rw [Ends, StoreM.read_bind]
  exact next _ h

/-- One after the other, where a success takes nothing. -/
theorem Takes.seq {f : α → StoreM β} (first : x.Takes 0 lost) (spares : ∀ R, x.Spares (·.Holds R))
    (next : ∀ a, (f a).Takes 0 lost) : (x >>= f).Takes 0 lost :=
  first.bind spares next (fun _ known => known) fun k known => by rwa [Nat.zero_add]

theorem Returns.seq {x y : StoreM Unit} (first : x.Returns m A) (frees : x.Frees m A)
    (second : y.Returns n B) :
    StoreM.Returns (do
      x
      y) (m + n) (A * B) := by
  intro s R h
  rw [mul_assoc] at h
  obtain ⟨s₁, ran, held, -⟩ := frees h
  have here := first h
  have later := second held
  rw [ran] at here
  rw [bind_apply, ran, newBytes_add, ← here, ← later]
  simp only
  omega

end StoreM

/-! ### Nodes and leaves -/

namespace Node

variable {s s' : Store} {n : Node} {role : Role} {layout : Layout} {width : Nat} {R : Assertion}

theorem create_takes (role : Role) (layout : Layout) (width : Nat) :
    (create role layout width).Takes 1 (· < 1) := by
  intro s R h
  rw [StoreM.Ends]
  split
  next n s' run =>
    obtain ⟨r, t, allocation, rest⟩ := StoreM.bind_ok.mp run
    rw [StoreM.modifyMemory_bind] at rest
    obtain ⟨-, rfl⟩ := StoreM.pure_ok.mp rest
    rw [Store.taken_withMemory, Store.taken_allocate (by decide) allocation]
    rfl
  next e s' run => exact ⟨0, Nat.one_pos, by rw [create_failed run, newBytes_zero, Int.add_zero]⟩

theorem taken_release_young (h : s.Holds (n.young * R)) :
    (s.release n.ref n.footprint).taken + newBytes 1 = s.taken := by
  obtain ⟨capacity, mutable, h⟩ := young_mul.mp h
  have whole : n.footprint = Header.initialCapacity :=
    (Nat.max_eq_left ((live_of_holds h).stored.room mutable)).trans capacity
  rw [whole]
  exact Store.taken_release mutable

theorem destroy_returns (n : Node) : n.destroy.Returns 1 n.blank :=
  fun _ _ h => taken_release_young (blank_mul.mp h).2

theorem destroyEach_eq (ns : List Node) (s : Store) :
    (forIn ns PUnit.unit fun d _ => do
      d.destroy
      pure (.yield PUnit.unit) : StoreM PUnit) s =
        (.ok .unit, ns.foldl (fun s d => s.release d.ref d.footprint) s) := by
  induction ns generalizing s with
  | nil => rfl
  | cons d ns ih =>
      simp only [List.forIn_cons, destroy, bind_assoc, StoreM.free_bind, pure_bind]
      exact ih _

theorem taken_releases {ns : List Node} (h : s.Holds (youngs ns * R)) :
    (ns.foldl (fun s d => s.release d.ref d.footprint) s).taken + newBytes ns.length = s.taken := by
  induction ns generalizing s with
  | nil => exact Int.add_zero _
  | cons n ns ih =>
      rw [youngs_cons, mul_assoc] at h
      rw [List.foldl_cons, List.length_cons, newBytes_add, ← Int.add_assoc, ih (destroy_young h).1,
        taken_release_young h]

theorem taken_destroyDeep_youngs {ns : List Node} (below : n.subtree s.memory = ns)
    (h : s.Holds (youngs ns * R)) : (n.destroyDeep s).2.taken + newBytes ns.length = s.taken := by
  rw [destroyDeep, StoreM.read_bind, below, StoreM.bind_apply, destroyEach_eq]
  exact taken_releases h

theorem destroyDeep_returns (n : Node) : n.destroyDeep.Returns 1 n.blank := by
  intro s R h
  obtain ⟨empty, h⟩ := blank_mul.mp h
  have held : s.Holds (youngs [n] * R) := by rwa [youngs_cons, youngs_nil, mul_one]
  exact taken_destroyDeep_youngs (subtreeWithin_blank empty _ _) held

end Node

/-- Empty leaves whose nodes are counted. -/
class TakenLeaf (L : Type) {V : outParam Type} [Leaf L V] extends BlankLeaf L where
  takes : (Leaf.create : StoreM L).Takes nodes (· < nodes)
  returns (l : L) : (Leaf.destroy l).Returns nodes (blank l)

instance : TakenLeaf Node where
  takes := Node.create_takes .plain .bits 0
  returns := Node.destroyDeep_returns

instance : TakenLeaf RefLeaf where
  takes := (Node.create_takes .refs .bits 0).map _
  returns l := l.node.destroyDeep_returns

instance {α : Type} [Scalar α] [LawfulScalar α] : TakenLeaf (ScalarLeaf α) where
  takes := (Node.create_takes .plain .bytes _).map _
  returns l := l.node.destroy_returns

namespace BytesLeaf

/-- The top node and the ends are lost when there is no block for the blob. -/
theorem create_takes : create.Takes 3 (· < 3) := by
  intro s R h
  have both (h : s.Holds R) {top ends : Node} {s₁ s₂ : Store}
      (first : Node.createPacked .refs s = (.ok top, s₁))
      (second : Node.createPacked .plain s₁ = (.ok ends, s₂)) : s₂.taken = s.taken + newBytes 2 := by
    have held := (Node.create_makes .refs .bits 0 (by decide)).made h first
    have took := (Node.create_takes .refs .bits 0).made h first
    have took' := (Node.create_takes .plain .bits 0).made held second
    rw [took', took, Int.add_assoc, ← newBytes_add]
  rw [StoreM.Ends]
  split
  next l s' run =>
    simp only [create, StoreM.bind_ok, StoreM.pure_ok] at run
    obtain ⟨top, s₁, first, ends, s₂, second, blob, s₃, third, ⟨_, top'⟩, s₄, fill, rfl, rfl⟩ := run
    obtain ⟨node, raw, rfl⟩ := StoreM.map_ok.mp third
    have held := Node.createPacked_holds (Node.createPacked_holds h first) second
    have took := (Node.create_takes .plain .raw 1).made held raw
    obtain ⟨head, held⟩ := parts_made h first second raw
    obtain ⟨n, m, filled, -⟩ := fill_room head held (Slot.ofRef ends.ref) (Slot.ofRef node.ref)
    cases filled.symm.trans (Edit.on_ok.mp fill)
    rw [Store.taken_withMemory, took, both h first second, Int.add_assoc, ← newBytes_add]
  next e s' run =>
    obtain failed | ⟨top, s₁, first, run⟩ := StoreM.bind_error.mp run
    · exact ⟨0, by decide, by rw [Node.create_failed failed, newBytes_zero, Int.add_zero]⟩
    obtain failed | ⟨ends, s₂, second, run⟩ := StoreM.bind_error.mp run
    · have took := (Node.create_takes .refs .bits 0).made h first
      exact ⟨1, by decide, by rw [Node.create_failed failed, took]⟩
    obtain failed | ⟨blob, s₃, third, run⟩ := StoreM.bind_error.mp run
    · refine ⟨2, by decide, ?_⟩
      rw [Node.create_failed (StoreM.map_error.mp failed), both h first second]
    obtain ⟨node, raw, rfl⟩ := StoreM.map_ok.mp third
    obtain ⟨head, held⟩ := parts_made h first second raw
    obtain ⟨n, m, filled, -⟩ := fill_room head held (Slot.ofRef ends.ref) (Slot.ofRef node.ref)
    rw [StoreM.bind_apply, Edit.on_ok.mpr filled] at run
    cases run

theorem destroy_returns (l : BytesLeaf) : l.destroy.Returns 3 l.blank := by
  intro s R h
  obtain ⟨below, h⟩ := youngs_of_blank h
  exact Node.taken_destroyDeep_youngs below h

instance : TakenLeaf BytesLeaf where
  takes := create_takes
  returns := destroy_returns

end BytesLeaf

/-! ### Columns and tables -/

namespace Tree

variable {L V : Type} [Leaf L V] [TakenLeaf L]

theorem create_takes (maxNodeSize : Nat) : (create maxNodeSize : StoreM (Tree L)).Takes
    (BlankLeaf.nodes L) (· < BlankLeaf.nodes L) := by
  have map : (create maxNodeSize : StoreM (Tree L)) =
      (fun l => ⟨.leaf l, maxNodeSize⟩) <$> Leaf.create := bind_pure_comp ..
  rw [map]
  exact TakenLeaf.takes.map _

theorem destroy_returns (t : Tree L) : t.destroy.Returns (BlankLeaf.nodes L) t.blank := by
  intro s R h
  obtain ⟨l, h⟩ := Store.holds_any_mul.mp h
  rw [mul_assoc, Store.holds_fact_mul] at h
  obtain ⟨root, h⟩ := h
  rw [destroy, root]
  exact TakenLeaf.returns l h

end Tree

theorem PlainColumn.create_takes (maxNodeSize : Nat) : (create maxNodeSize).Takes 3 (· < 3) := by
  have map : create maxNodeSize = (fun tree => { tree }) <$> Tree.create maxNodeSize :=
    bind_pure_comp ..
  rw [map]
  exact (Tree.create_takes maxNodeSize).map _

/-- The keys are lost when there is no block for the values. -/
theorem EnumColumn.create_takes (maxNodeSize : Nat) : (create maxNodeSize).Takes 4 (· < 4) := by
  have values (keys : PlainColumn) :
      (return { keys, values := ← Tree.create maxNodeSize } : StoreM EnumColumn).Takes 1 (· < 1) := by
    rw [bind_pure_comp]
    exact (Tree.create_takes (L := Node) maxNodeSize).map _
  refine (PlainColumn.create_takes maxNodeSize).bind
    (fun R => (PlainColumn.create_makes maxNodeSize).spares) values (fun k => ?_) fun k => ?_
  · omega
  · omega

namespace Column

theorem create_takes (settings : StoreSettings) (spec : ColumnSpec) :
    (create settings spec).Takes spec.nodes (· < spec.nodes) := by
  obtain ⟨name, kind, columns⟩ := spec
  cases kind
  case int | bool | dateTime | float | double | binary => exact (Tree.create_takes _).map _
  case string => exact (PlainColumn.create_takes _).map _
  case stringEnum => exact (EnumColumn.create_takes _).map _
  case link | linkList => exact ((Tree.create_takes _).map _).map _
  case table => exact .pure _

theorem destroy_returns (c : Column Table) : (Table.destroyColumn c).Returns c.nodes c.blank := by
  match c with
  | int c => exact Tree.destroy_returns c
  | single c => exact Tree.destroy_returns c
  | double c => exact Tree.destroy_returns c
  | text (.plain c) => exact Tree.destroy_returns c.tree
  | text (.enum c) =>
      exact (Tree.destroy_returns c.keys.tree).seq (Tree.destroy_frees c.keys.tree)
        (Tree.destroy_returns c.values)
  | bytes c => exact Tree.destroy_returns c
  | link c => exact Tree.destroy_returns c.values
  | linkList c => exact Tree.destroy_returns c.lists
  | table ⟨schema, cells⟩ =>
      intro s R h
      obtain ⟨none, -⟩ := Store.holds_fact_mul.mp h
      simp only at none
      rw [none, Table.destroyColumn, Table.destroyCells]
      exact Int.add_zero _

end Column

theorem destroyColumns_returns (cs : List (Column Table)) :
    (Table.destroyColumns cs).Returns (nodesIn cs) (blanks cs) := by
  induction cs with
  | nil => exact fun s R h => Int.add_zero _
  | cons c cs ih =>
      rw [nodesIn, blanks, List.map_cons, List.map_cons, List.sum_cons, List.prod_cons]
      exact (Column.destroy_returns c).seq (Column.destroy_frees c) ih

/-- The nodes of empty columns as a schema says. -/
def schemaNodes (schema : List ColumnSpec) : Nat := (schema.map ColumnSpec.nodes).sum

namespace Table

variable {t : Table}

/-- A table without rows has nothing to fill a new column with. -/
theorem addColumn_eq {spec : ColumnSpec} {s : Store} (empty : t.size = 0) :
    addColumn spec (t, s) = match Column.create t.settings spec s with
      | (.ok c, s') => (.ok t.columns.length, ({ t with
          schema := t.schema ++ [spec], columns := t.columns ++ [c] }, s'))
      | (.error e, s') => (.error e, (t, s')) := by
  have lifted : (liftM (Column.create t.settings spec) : Edit Table _) (t, s) =
      ((Column.create t.settings spec s).1, (t, (Column.create t.settings spec s).2)) := rfl
  rw [addColumn, Edit.self_bind, Edit.bind_apply, lifted, empty]
  rcases Column.create t.settings spec s with ⟨_ | c, s'⟩
  · rfl
  · rfl

theorem on_addColumns_cons (empty : t.size = 0) (spec : ColumnSpec) (schema : List ColumnSpec) :
    Edit.on t (addColumns (spec :: schema)) = Column.create t.settings spec >>= fun c =>
      Edit.on { t with schema := t.schema ++ [spec], columns := t.columns ++ [c] }
        (addColumns schema) := by
  funext s
  rw [addColumns_cons, Edit.on, Edit.bind_apply, addColumn_eq empty, StoreM.bind_apply]
  rcases Column.create t.settings spec s with ⟨_ | c, s'⟩
  · rfl
  · rfl

theorem on_addColumns_takes (empty : t.size = 0) (schema : List ColumnSpec) :
    (Edit.on t (addColumns schema)).Takes (schemaNodes schema) (· < schemaNodes schema) := by
  induction schema generalizing t with
  | nil => exact .pure _
  | cons spec schema ih =>
      rw [on_addColumns_cons empty, schemaNodes, List.map_cons, List.sum_cons]
      exact (Column.create_takes t.settings spec).bind
        (fun R => (Column.create_makes t.settings spec).spares) (fun c => ih empty)
        (fun k less => Nat.lt_add_right _ less) fun k less => Nat.add_lt_add_left less _

/-- What a table with a schema takes, and what is lost of it when the store is full before it is
finished. -/
theorem ofSchema_takes {settings : StoreSettings} (legal : settings.check = .ok ())
    (schema : List ColumnSpec) :
    (ofSchema settings schema).Takes (schemaNodes schema) (· < schemaNodes schema) := by
  rw [ofSchema_eq legal]
  exact (on_addColumns_takes rfl schema).map _

/-- With blocks for two nodes only, both are lost. -/
example :
    let settings : StoreSettings := { minSlabSize := 128, memoryLimit := some 256 }
    let r := ofSchema settings [{ name := "s", kind := .string }] (.empty settings)
    (r.1.isOk, r.2.taken) = (false, 256) := by
  decide +kernel

end Table

/-! ### Checks -/

/-- A schema of tables in the columns of a table, or in the columns of such tables. -/
inductive Inner (schema : List ColumnSpec) : List Form → Prop
  | here {forms : List Form} : .table schema ∈ forms → Inner schema forms
  | deeper {forms : List Form} {columns : List ColumnSpec} : .table columns ∈ forms →
      Inner schema (columns.map ColumnSpec.form) → Inner schema forms

/-- The number of nodes lost in a failed check: none, or a part of one prototype. -/
def LostIn (forms : List Form) (kept : Nat) : Prop :=
  kept = 0 ∨ ∃ schema, Inner schema forms ∧ kept < schemaNodes schema

namespace Probe

variable {α : Type} {settings : StoreSettings} {schema : List ColumnSpec} {check : Table → StoreM α}
  {lost all : Nat → Prop}

/-- All that a prototype took is given back before the outcome of its check is passed on. So a
failure loses a part of a prototype that could not be finished, or what the check lost. -/
theorem withPrototype_takes (spares : ∀ t R, (check t).Spares (·.Holds R))
    (each : ∀ t : Table, t.forms = schema.map ColumnSpec.form → (check t).Takes 0 lost)
    (none : all 0) (part : ∀ k < schemaNodes schema, all k) (inside : ∀ k, lost k → all k) :
    (withPrototype settings schema check).Takes 0 all := by
  intro s R h
  rw [StoreM.Ends]
  cases legal : settings.check with
  | error e =>
      rw [withPrototype_failed (Table.ofSchema_illegal legal schema s)]
      exact ⟨0, none, (Int.add_zero _).symm⟩
  | ok =>
      have took := Table.ofSchema_takes legal schema h
      rw [StoreM.Ends] at took
      rcases made : Table.ofSchema settings schema s with ⟨e | t, s₁⟩
      · rw [made] at took
        obtain ⟨kept, less, taken⟩ := took
        rw [withPrototype_failed made]
        exact ⟨kept, part kept less, taken⟩
      have h := (Table.ofSchema_makes legal schema).made h made
      rw [mul_assoc, Store.holds_fact_mul] at h
      obtain ⟨prototype, h⟩ := h
      have checks := each t prototype.forms h
      have held := (spares t _ s₁ h).1
      rw [StoreM.Ends] at checks
      rcases checked : check t s₁ with ⟨r, s₂⟩
      rw [checked] at held checks
      obtain ⟨s₃, freed, -⟩ := destroyColumns_frees t.columns held
      have back := destroyColumns_returns t.columns held
      rw [withPrototype_eq made checked freed]
      rw [freed, prototype.nodes, ← schemaNodes] at back
      rw [made] at took
      simp only at took back
      cases r with
      | error e =>
          obtain ⟨kept, known, taken⟩ := checks
          exact ⟨kept, inside kept known, by omega⟩
      | ok a =>
          simp only [newBytes_zero] at checks ⊢
          omega

section

variable (t : Table) {lost : Nat → Prop} (none : lost 0)
include none

theorem bindText_takes (col : Nat) (test : ByteArray → Bool) :
    (bindText t col test).Takes 0 lost := by
  refine .lift_bind none fun c _ => ?_
  cases c with
  | plain c => exact .pure _
  | enum c => exact .read_bind fun _ => .pure _

theorem bindExactText_takes (col : Nat) (needle : ByteArray) :
    (bindExactText t col needle).Takes 0 lost := by
  refine .lift_bind none fun c _ => ?_
  dsimp only
  split
  · exact .pure _
  · exact .pure _
  · refine .read_bind fun key => ?_
    cases key with
    | none => exact .pure _
    | some key => exact .pure _

theorem bindLinks_takes (col : Nat) (target : Option Nat) :
    (bindLinks t col target).Takes 0 lost := by
  refine .lift_bind none fun c _ => ?_
  cases c with
  | link c => exact .pure _
  | linkList c => exact .pure _
  | _ => exact .throw _ none

end

theorem table_mem_forms {t : Table} {col : Nat} {c : SubtableColumn Table}
    (found : t.columnOf (SubtableColumn Table) col = .ok c) : .table c.schema ∈ t.forms :=
  List.mem_map.mpr ⟨.table c, List.mem_of_getElem? (Table.columnOf_ok found), rfl⟩

mutual

/-- Binding a condition takes nothing. If it fails, it is the making of a prototype that can lose
something: a part of that prototype. -/
theorem bind_takes (settings : QuerySettings) (t : Table) (c : Condition) :
    (bind settings t c).Takes 0 (LostIn t.forms) := by
  have none : LostIn t.forms 0 := .inl rfl
  match c with
  | .int .. | .single .. | .double .. | .bytes .. => exact .lift_bind none fun _ _ => .pure _
  | .exactText col needle => exact bindExactText_takes t none col needle
  | .text col test caseSensitive needle => exact bindText_takes t none col _
  | .columns type test left right =>
      exact .lift (bindColumns t type test left right) none
  | .linksTo col target => exact bindLinks_takes t none col target
  | .compare test left right =>
      exact .lift_bind none fun _ _ => .lift_bind none fun _ _ => .pure _
  | .negation chain =>
      exact (bindChain_takes settings t chain).seq
        (fun R => (bindChain_keeps settings t chain).spares) fun _ => .pure _
  | .disjunction branches =>
      exact (bindBranches_takes settings t branches).seq
        (fun R => (bindBranches_keeps settings t branches).spares) fun _ => .pure _
  | .subtable col chain =>
      refine .lift_bind none fun c found => ?_
      have inner := table_mem_forms found
      have spares (sub : Table) (R : Assertion) : (bindChain settings sub chain).Spares (·.Holds R) :=
        (bindChain_keeps settings sub chain).spares
      refine (withPrototype_takes spares
        (fun sub same => same ▸ bindChain_takes settings sub chain) none
        (fun k less => .inr ⟨_, .here inner, less⟩) fun k lost => ?_).seq
          (fun R => withPrototype_spares spares) fun _ => .pure _
      rcases lost with rfl | ⟨schema, deep, less⟩
      · exact none
      · exact .inr ⟨schema, .deeper inner deep, less⟩

theorem bindChain_takes (settings : QuerySettings) (t : Table) (chain : List Condition) :
    (bindChain settings t chain).Takes 0 (LostIn t.forms) := by
  have none : LostIn t.forms 0 := .inl rfl
  match chain with
  | [] => exact .pure _
  | c :: cs =>
      exact (bind_takes settings t c).seq (fun R => (bind_keeps settings t c).spares) fun _ =>
        (bindChain_takes settings t cs).seq (fun R => (bindChain_keeps settings t cs).spares)
          fun _ => .pure _

theorem bindBranches_takes (settings : QuerySettings) (t : Table)
    (branches : List (List Condition)) :
    (bindBranches settings t branches).Takes 0 (LostIn t.forms) := by
  have none : LostIn t.forms 0 := .inl rfl
  match branches with
  | [] => exact .pure _
  | chain :: rest =>
      exact (bindChain_takes settings t chain).seq
        (fun R => (bindChain_keeps settings t chain).spares) fun _ =>
          (bindBranches_takes settings t rest).seq
            (fun R => (bindBranches_keeps settings t rest).spares) fun _ => .pure _

end

end Probe

end ColumnStore
