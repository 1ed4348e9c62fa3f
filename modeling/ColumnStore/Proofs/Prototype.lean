import ColumnStore.Proofs.Blank
import ColumnStore.Query.Probe

set_option autoImplicit false

/-!
Empty tables made for a check and freed again. A prototype has columns as its schema says, and all
that is kept meanwhile is still there afterwards, with as much room as before.
-/
namespace ColumnStore

open Assertion (fact any)

/-! ### Forms -/

/-- What conditions ask of a column: the type of its values, and the schema of its tables. -/
inductive Form where
  | int
  | single
  | double
  | text
  | bytes
  | link
  | linkList
  | table (columns : List ColumnSpec)

def Column.form {T : Type} : Column T → Form
  | int _ => .int
  | single _ => .single
  | double _ => .double
  | text _ => .text
  | bytes _ => .bytes
  | link _ => .link
  | linkList _ => .linkList
  | table c => .table c.schema

def ColumnSpec.form (spec : ColumnSpec) : Form :=
  match spec.kind with
  | .int | .bool | .dateTime => .int
  | .float => .single
  | .double => .double
  | .string | .stringEnum => .text
  | .binary => .bytes
  | .link => .link
  | .linkList => .linkList
  | .table => .table spec.columns

def Table.forms (t : Table) : List Form := t.columns.map Column.form

/-! ### Trees -/

namespace Tree

variable {L V : Type} [Leaf L V] [BlankLeaf L]

/-- One empty leaf. -/
def blank (t : Tree L) : Assertion :=
  any fun l : L => fact (t.root = .leaf l) * BlankLeaf.blank l

theorem create_makes (maxNodeSize : Nat) :
    (create maxNodeSize : StoreM (Tree L)).Makes (BlankLeaf.nodes L) blank := by
  have map : (create maxNodeSize : StoreM (Tree L)) =
      (fun l => ⟨.leaf l, maxNodeSize⟩) <$> Leaf.create := bind_pure_comp ..
  rw [map]
  refine BlankLeaf.create.map fun l m base own h => ⟨l, ?_⟩
  exact Assertion.fact_mul.mpr ⟨rfl, h⟩

theorem destroy_frees (t : Tree L) : t.destroy.Frees (BlankLeaf.nodes L) t.blank := by
  intro s R h
  obtain ⟨l, h⟩ := Store.holds_any_mul.mp h
  rw [mul_assoc, Store.holds_fact_mul] at h
  obtain ⟨root, h⟩ := h
  rw [destroy, root]
  exact BlankLeaf.destroy l h

end Tree

/-! ### Columns -/

namespace Column

/-- The nodes of an empty column. -/
def nodes : Column Table → Nat
  | text (.plain _) | bytes _ => 3
  | text (.enum _) => 4
  | table _ => 0
  | _ => 1

def blank : Column Table → Assertion
  | int c => Tree.blank c
  | single c => Tree.blank c
  | double c => Tree.blank c
  | text (.plain c) => Tree.blank c.tree
  | text (.enum c) => Tree.blank c.keys.tree * Tree.blank c.values
  | bytes c => Tree.blank c
  | link c => Tree.blank c.values
  | linkList c => Tree.blank c.lists
  | table c => fact (c.cells = [])

end Column

/-- The nodes of an empty column of this kind. -/
def ColumnSpec.nodes (spec : ColumnSpec) : Nat :=
  match spec.kind with
  | .string | .binary => 3
  | .stringEnum => 4
  | .table => 0
  | _ => 1

/-- An empty column as the schema says. -/
def Column.fresh (spec : ColumnSpec) (c : Column Table) : Assertion :=
  fact (c.form = spec.form ∧ c.nodes = spec.nodes) * c.blank

namespace StoreM

variable {α β : Type} {x : StoreM α} {n : Nat} {A : α → Assertion} {spec : ColumnSpec}

theorem Makes.column (made : x.Makes n A) (nodes : spec.nodes = n) (f : α → Column Table)
    (form : ∀ a, (f a).form = spec.form) (count : ∀ a, (f a).nodes = n)
    (same : ∀ a, (f a).blank = A a) : (f <$> x).Makes spec.nodes (Column.fresh spec) := by
  rw [nodes]
  refine made.map fun a m base own h => Assertion.fact_mul.mpr ⟨⟨form a, ?_⟩, ?_⟩
  · rw [count, nodes]
  · rwa [same]

end StoreM

theorem PlainColumn.create_makes (maxNodeSize : Nat) :
    (create maxNodeSize).Makes 3 fun c => c.tree.blank := by
  have map : create maxNodeSize = (fun tree => { tree }) <$> Tree.create maxNodeSize :=
    bind_pure_comp ..
  rw [map]
  exact (Tree.create_makes maxNodeSize).map fun _ => .refl _

theorem EnumColumn.create_makes (maxNodeSize : Nat) :
    (create maxNodeSize).Makes 4 fun c => c.keys.tree.blank * c.values.blank :=
  (PlainColumn.create_makes maxNodeSize).both (Tree.create_makes maxNodeSize) fun _ _ => .refl _

namespace Column

theorem create_makes (settings : StoreSettings) (spec : ColumnSpec) :
    (create settings spec).Makes spec.nodes (fresh spec) := by
  obtain ⟨name, kind, columns⟩ := spec
  cases kind
  case int | bool | dateTime | float | double | binary =>
    exact (Tree.create_makes _).column rfl _ (fun _ => rfl) (fun _ => rfl) fun _ => rfl
  case string =>
    exact (PlainColumn.create_makes _).column rfl _ (fun _ => rfl) (fun _ => rfl) fun _ => rfl
  case stringEnum =>
    exact (EnumColumn.create_makes _).column rfl _ (fun _ => rfl) (fun _ => rfl) fun _ => rfl
  case link =>
    have made := (Tree.create_makes (L := Node) settings.maxNodeSize).map (f := LinkColumn.mk)
      (C := fun c => c.values.blank) fun _ => .refl _
    exact made.column rfl _ (fun _ => rfl) (fun _ => rfl) fun _ => rfl
  case linkList =>
    have made := (Tree.create_makes (L := RefLeaf) settings.maxNodeSize).map
      (f := LinkListColumn.mk) (C := fun c => c.lists.blank) fun _ => .refl _
    exact made.column rfl _ (fun _ => rfl) (fun _ => rfl) fun _ => rfl
  case table =>
    refine ⟨fun h run => ?_, fun _ run => ?_, fun _ roomy _ => ⟨_, _, rfl, roomy⟩⟩
    · cases run
      rw [fresh, mul_assoc, Store.holds_fact_mul, blank, Store.holds_fact_mul]
      exact ⟨⟨rfl, rfl⟩, rfl, h⟩
    · cases run

theorem destroy_frees (c : Column Table) : (Table.destroyColumn c).Frees c.nodes c.blank := by
  match c with
  | int c => exact Tree.destroy_frees c
  | single c => exact Tree.destroy_frees c
  | double c => exact Tree.destroy_frees c
  | text (.plain c) => exact Tree.destroy_frees c.tree
  | text (.enum c) => exact (Tree.destroy_frees c.keys.tree).seq (Tree.destroy_frees c.values)
  | bytes c => exact Tree.destroy_frees c
  | link c => exact Tree.destroy_frees c.values
  | linkList c => exact Tree.destroy_frees c.lists
  | table ⟨schema, cells⟩ =>
      intro s R h
      obtain ⟨none, h⟩ := Store.holds_fact_mul.mp h
      simp only at none
      rw [none, Table.destroyColumn, Table.destroyCells]
      exact ⟨s, rfl, h, id⟩

end Column

/-! ### Tables -/

def blanks (cs : List (Column Table)) : Assertion := (cs.map Column.blank).prod

def nodesIn (cs : List (Column Table)) : Nat := (cs.map Column.nodes).sum

theorem destroyColumns_frees (cs : List (Column Table)) :
    (Table.destroyColumns cs).Frees (nodesIn cs) (blanks cs) := by
  induction cs with
  | nil => exact .none
  | cons c cs ih =>
      rw [nodesIn, blanks, List.map_cons, List.map_cons, List.sum_cons, List.prod_cons]
      exact (Column.destroy_frees c).seq ih

namespace Table

variable {s s' : Store} {R : Assertion} {total used : Nat} {t t' : Table}

/-- A table without rows gets a column that is empty too. -/
theorem addColumn_made {spec : ColumnSpec} {col : Nat} (empty : t.size = 0) (h : s.Holds R)
    (run : addColumn spec (t, s) = (.ok col, (t', s'))) : ∃ c, t' = { t with
      schema := t.schema ++ [spec], columns := t.columns ++ [c] } ∧ s'.Holds (c.fresh spec * R) := by
  simp only [addColumn, Edit.self_bind, empty] at run
  obtain ⟨c, s₁, created, run⟩ := Edit.lift_bind_ok.mp run
  cases run
  exact ⟨c, by rw [empty], (Column.create_makes t.settings spec).made h created⟩

theorem addColumn_keeps (spec : ColumnSpec) :
    (addColumn spec).Keeps (·.Holds R) (·.size = 0) fun _ t => t.size = 0 := by
  refine .self_bind fun t empty => ?_
  refine .lift_bind (Column.create_makes t.settings spec).spares fun c _ => ?_
  rw [empty]
  exact fun p _ h => ⟨h, fun _ _ => rfl⟩

theorem addColumn_roomy (spec : ColumnSpec) (empty : t.size = 0) (h : s.Holds R)
    (roomy : s.Roomy total used) (fits : used + spec.nodes ≤ total) :
    ∃ c s', addColumn spec (t, s) = (.ok t.columns.length, ({ t with
        schema := t.schema ++ [spec], columns := t.columns ++ [c] }, s')) ∧
      s'.Roomy total (used + spec.nodes) := by
  obtain ⟨c, s', run, roomy⟩ := (Column.create_makes t.settings spec).roomy h roomy fits
  refine ⟨c, s', ?_, roomy⟩
  simp only [addColumn, Edit.self_bind, empty]
  exact Edit.lift_bind_ok.mpr ⟨c, s', run, rfl⟩

/-- The columns of a schema, one after the other. -/
def addColumns (schema : List ColumnSpec) : Edit Table PUnit :=
  forIn schema PUnit.unit fun spec _ => do
    let _ ← addColumn spec
    pure (.yield PUnit.unit)

theorem addColumns_cons (spec : ColumnSpec) (schema : List ColumnSpec) :
    addColumns (spec :: schema) = addColumn spec >>= fun _ => addColumns schema := by
  simp only [addColumns, List.forIn_cons, bind_assoc, pure_bind]

theorem addColumns_made {schema : List ColumnSpec} (empty : t.size = 0) (h : s.Holds R)
    (run : addColumns schema (t, s) = (.ok .unit, (t', s'))) :
    ∃ cs, t'.columns = t.columns ++ cs ∧ cs.map Column.form = schema.map ColumnSpec.form ∧
      nodesIn cs = (schema.map ColumnSpec.nodes).sum ∧ t'.settings = t.settings ∧
      s'.Holds (blanks cs * R) := by
  induction schema generalizing t s R with
  | nil =>
      cases run
      refine ⟨[], (List.append_nil _).symm, rfl, rfl, rfl, ?_⟩
      rwa [blanks, List.map_nil, List.prod_nil, one_mul]
  | cons spec schema ih =>
      rw [addColumns_cons] at run
      obtain ⟨_, ⟨_, s₁⟩, added, run⟩ := Edit.bind_ok.mp run
      obtain ⟨c, rfl, h⟩ := addColumn_made empty h added
      rw [Column.fresh, mul_assoc, Store.holds_fact_mul] at h
      obtain ⟨⟨form, count⟩, h⟩ := h
      obtain ⟨cs, columns, forms, counts, settings, h⟩ := ih (t := { t with
        schema := t.schema ++ [spec], columns := t.columns ++ [c] }) empty h run
      refine ⟨c :: cs, ?_, ?_, ?_, settings, ?_⟩
      · rw [columns, List.append_assoc, List.singleton_append]
      · rw [List.map_cons, List.map_cons, form, forms]
      · rw [nodesIn, List.map_cons, List.sum_cons, List.map_cons, List.sum_cons, count, ← counts,
          nodesIn]
      · exact h.of_eq (by rw [blanks, blanks, List.map_cons, List.prod_cons]; ac_rfl)

theorem addColumns_keeps (schema : List ColumnSpec) :
    (addColumns schema).Keeps (·.Holds R) (·.size = 0) fun _ _ => True := by
  induction schema with
  | nil => exact .pure fun _ _ => trivial
  | cons spec schema ih =>
      rw [addColumns_cons]
      exact (addColumn_keeps spec).bind fun _ => ih

theorem addColumns_roomy (schema : List ColumnSpec) (empty : t.size = 0) (h : s.Holds R)
    (roomy : s.Roomy total used) (fits : used + (schema.map ColumnSpec.nodes).sum ≤ total) :
    ∃ t' s', addColumns schema (t, s) = (.ok .unit, (t', s')) ∧
      s'.Roomy total (used + (schema.map ColumnSpec.nodes).sum) := by
  induction schema generalizing t s R used with
  | nil => exact ⟨t, s, rfl, roomy⟩
  | cons spec schema ih =>
      rw [List.map_cons, List.sum_cons] at fits
      obtain ⟨c, s₁, run, roomy⟩ := addColumn_roomy spec empty h roomy (by omega)
      obtain ⟨_, -, h⟩ := addColumn_made empty h run
      obtain ⟨t', s', rest, roomy⟩ := ih (t := { t with
        schema := t.schema ++ [spec], columns := t.columns ++ [c] }) empty h roomy (by omega)
      refine ⟨t', s', ?_, ?_⟩
      · rw [addColumns_cons]
        exact Edit.bind_ok.mpr ⟨_, _, run, rest⟩
      · rwa [List.map_cons, List.sum_cons, ← Nat.add_assoc]

/-- A table with empty columns as a schema says. -/
structure Prototype (settings : StoreSettings) (schema : List ColumnSpec) (t : Table) : Prop where
  settings : t.settings = settings
  forms : t.forms = schema.map ColumnSpec.form
  nodes : nodesIn t.columns = (schema.map ColumnSpec.nodes).sum

theorem ofSchema_eq {settings : StoreSettings} (legal : settings.check = .ok ())
    (schema : List ColumnSpec) :
    ofSchema settings schema = Prod.snd <$> Edit.on { settings } (addColumns schema) := by
  have made : create settings = .ok { settings } := by
    rw [create, legal]
    rfl
  have whole : (do
      for spec in schema do
        let _ ← addColumn spec : Edit Table Unit) = addColumns schema := bind_pure_unit
  rw [ofSchema, made, ← bind_pure_comp, whole]
  rfl

theorem ofSchema_illegal {settings : StoreSettings} {e : Error}
    (illegal : settings.check = .error e) (schema : List ColumnSpec) (s : Store) :
    ofSchema settings schema s = (.error e, s) := by
  rw [ofSchema, create, illegal]
  rfl

theorem ofSchema_makes {settings : StoreSettings} (legal : settings.check = .ok ())
    (schema : List ColumnSpec) : (ofSchema settings schema).Makes (schema.map ColumnSpec.nodes).sum
      fun t => fact (Prototype settings schema t) * blanks t.columns where
  made {s s' R t} h run := by
    rw [ofSchema_eq legal, StoreM.map_ok] at run
    obtain ⟨⟨_, t⟩, ran, rfl⟩ := run
    obtain ⟨cs, columns, forms, nodes, same, h⟩ := addColumns_made rfl h (Edit.on_ok.mp ran)
    rw [List.nil_append] at columns
    subst columns
    rw [mul_assoc, Store.holds_fact_mul]
    exact ⟨⟨same, forms, nodes⟩, h⟩
  failed {s s' R e} h run := by
    have kept := (addColumns_keeps (R := R) schema ({ settings }, s) rfl h).1
    rw [ofSchema_eq legal, StoreM.map_error, Edit.on] at run
    rcases ran : addColumns schema ({ settings }, s) with ⟨e | x, t, s''⟩
    all_goals
      rw [ran] at run kept
      cases run
    exact kept
  roomy {s R total used} h roomy fits := by
    obtain ⟨t, s', run, roomy⟩ := addColumns_roomy schema (t := { settings }) rfl h roomy fits
    refine ⟨t, s', ?_, roomy⟩
    rw [ofSchema_eq legal, StoreM.map_ok]
    exact ⟨_, Edit.on_ok.mpr run, rfl⟩

end Table

namespace Probe

variable {α : Type} {s s₁ s₂ : Store} {R : Assertion} {total used : Nat} {settings : StoreSettings}
  {schema : List ColumnSpec} {check : Table → StoreM α}

/-- Whatever the check answers, the prototype is freed before it is passed on. -/
theorem withPrototype_eq {t : Table} {r : Except Error α} {s₃ : Store}
    (made : Table.ofSchema settings schema s = (.ok t, s₁)) (checked : check t s₁ = (r, s₂))
    (freed : Table.destroyColumns t.columns s₂ = (.ok (), s₃)) :
    withPrototype settings schema check s = (r, s₃) := by
  have lifted : (ExceptT.lift (check t).run : StoreM (Except Error α)) s₁ = (.ok r, s₂) := by
    show (Except.ok (check t s₁).1, (check t s₁).2) = _
    rw [checked]
  have destroyed : t.destroy s₂ = (.ok (), s₃) := by
    obtain ⟨_, _, columns, _⟩ := t
    rw [Table.destroy]
    exact freed
  have outcome : (liftM r : StoreM α) s₃ = (r, s₃) := by
    cases r <;> rfl
  rw [← outcome, withPrototype, StoreM.bind_apply, made]
  simp only
  rw [StoreM.bind_apply, lifted]
  simp only
  rw [StoreM.bind_apply, destroyed]

theorem withPrototype_checked {t : Table} {r : Except Error α}
    (made : Table.ofSchema settings schema s = (.ok t, s₁)) (checked : check t s₁ = (r, s₂))
    (h : s₂.Holds (blanks t.columns * R)) :
    ∃ s₃, withPrototype settings schema check s = (r, s₃) ∧ s₃.Holds R ∧
      ∀ {total used}, s₂.Roomy total (used + nodesIn t.columns) → s₃.Roomy total used := by
  obtain ⟨s₃, freed, h, roomy⟩ := destroyColumns_frees t.columns h
  exact ⟨s₃, withPrototype_eq made checked freed, h, roomy⟩

/-- A check that leaves the prototype as it is leaves nothing behind. -/
theorem withPrototype_run (legal : settings.check = .ok ()) (h : s.Holds R)
    (roomy : s.Roomy total used) (fits : used + (schema.map ColumnSpec.nodes).sum ≤ total) :
    ∃ t s₁, t.Prototype settings schema ∧ s₁.Holds (blanks t.columns * R) ∧
      s₁.Roomy total (used + nodesIn t.columns) ∧
      ∀ {r s₂}, check t s₁ = (r, s₂) → s₂.Holds (blanks t.columns * R) →
        s₂.Roomy total (used + nodesIn t.columns) →
        ∃ s₃, withPrototype settings schema check s = (r, s₃) ∧ s₃.Holds R ∧
          s₃.Roomy total used := by
  obtain ⟨t, s₁, made, h, roomy⟩ := (Table.ofSchema_makes legal schema).run h roomy fits
  rw [mul_assoc, Store.holds_fact_mul] at h
  obtain ⟨prototype, h⟩ := h
  rw [← prototype.nodes] at roomy
  refine ⟨t, s₁, prototype, h, roomy, fun checked h roomy => ?_⟩
  obtain ⟨s₃, run, h, freed⟩ := withPrototype_checked made checked h
  exact ⟨s₃, run, h, freed roomy⟩

theorem withPrototype_failed {e : Error}
    (failed : Table.ofSchema settings schema s = (.error e, s₁)) :
    withPrototype settings schema check s = (.error e, s₁) := by
  rw [withPrototype, StoreM.bind_apply, failed]

/-- Nothing else is touched, also when no prototype can be made. -/
theorem withPrototype_spares (spares : ∀ t R, (check t).Spares (·.Holds R)) :
    (withPrototype settings schema check).Spares (·.Holds R) := by
  intro s h
  refine ⟨?_, fun _ _ => trivial⟩
  cases legal : settings.check with
  | error e =>
      rw [withPrototype_failed (Table.ofSchema_illegal legal schema s)]
      exact h
  | ok =>
      have makes := Table.ofSchema_makes legal schema
      rcases made : Table.ofSchema settings schema s with ⟨e | t, s₁⟩
      · rw [withPrototype_failed made]
        exact makes.failed h made
      · have h := makes.made h made
        rw [mul_assoc, Store.holds_fact_mul] at h
        rcases checked : check t s₁ with ⟨r, s₂⟩
        have kept := (spares t _ s₁ h.2).1
        rw [checked] at kept
        obtain ⟨s₃, run, h, -⟩ := withPrototype_checked made checked kept
        rwa [run]

end Probe

end ColumnStore
