import ColumnStore.Proofs.TableCells

set_option autoImplicit false

/-!
Runs of operations on a table and on the tables in its cells. A run that succeeds makes of the table
what the same operations make of its sheet.
-/
namespace ColumnStore.Table

inductive Op where
  | addColumn (spec : ColumnSpec)
  | addRows (count : Nat)
  | insertRow (row : Nat)
  | remove (row : Nat)
  | clear
  | setInt (col row : Nat) (v : Int64)
  | setBool (col row : Nat) (v : Bool)
  | setSingle (col row : Nat) (v : Single)
  | setDouble (col row : Nat) (v : Double)
  | setString (col row : Nat) (v : String)
  | setBytes (col row : Nat) (v : ByteArray)
  | setLink (col row : Nat) (target : Option Nat)
  | addLink (col row target : Nat)
  | adjustInt (col : Nat) (d : Int64)
  | addIndex (col : Nat)
  | optimize (col : Nat)
  /-- Operations on the table in a cell. -/
  | inCell (col row : Nat) (ops : List Op)

mutual

def Op.run : Op → Edit Table Unit
  | .addColumn spec => do let _ ← Table.addColumn spec
  | .addRows count => do let _ ← Table.addRows count
  | .insertRow row => Table.insertRow row
  | .remove row => Table.remove row
  | .clear => Table.clear
  | .setInt col row v => Table.setInt col row v
  | .setBool col row v => Table.setBool col row v
  | .setSingle col row v => Table.setSingle col row v
  | .setDouble col row v => Table.setDouble col row v
  | .setString col row v => Table.setString col row v
  | .setBytes col row v => Table.setBytes col row v
  | .setLink col row target => Table.setLink col row target
  | .addLink col row target => Table.addLink col row target
  | .adjustInt col d => Table.adjustInt col d
  | .addIndex col => Table.addIndex col
  | .optimize col => do let _ ← Table.optimize col
  | .inCell col row ops => editSubtable col row (run ops)

def run : List Op → Edit Table Unit
  | [] => pure ()
  | op :: ops => do
      op.run
      run ops

end

mutual

def Op.onSheet : Op → Sheet → Sheet
  | .addColumn spec, x => x.addColumn spec
  | .addRows count, x => x.addRows count
  | .insertRow row, x => x.insertRow row
  | .remove row, x => x.remove row
  | .clear, x => x.clear
  | .setInt col row v, x => x.edit col (.setInt row v)
  | .setBool col row v, x => x.edit col (.setInt row (if v then 1 else 0))
  | .setSingle col row v, x => x.edit col (.setSingle row v)
  | .setDouble col row v, x => x.edit col (.setDouble row v)
  | .setString col row v, x => x.edit col (.setText row v)
  | .setBytes col row v, x => x.edit col (.setBytes row v)
  | .setLink col row target, x => x.edit col (.setLink row (LinkColumn.encode target))
  | .addLink col row target, x => x.edit col (.addLink row (Link.toWord target))
  | .adjustInt col d, x => x.edit col (.adjust d)
  | .addIndex _, x => x
  | .optimize _, x => x
  | .inCell col row ops, x => x.edit col (.editTable row (onSheet ops))

def onSheet : List Op → Sheet → Sheet
  | [], x => x
  | op :: ops, x => onSheet ops (op.onSheet x)

end

mutual

/-- How many rows or keys an operation can add. -/
def Op.weight : Op → Nat
  | .addRows count => count
  | .inCell _ _ ops => weight ops
  | .insertRow _ | .remove _ | .clear | .setString .. | .addIndex _ => 1
  | _ => 0

def weight : List Op → Nat
  | [] => 0
  | op :: ops => op.weight + weight ops

end

mutual

/-- No list of links gets longer than a node can be. -/
def Op.Short : Op → Sheet → Prop
  | .addLink col row _, x => ∀ lists, x.columns[col]? = some (.linkList lists) →
      ∀ words ∈ lists[row]?, words.length + 1 < 2 ^ 24
  | .inCell col row ops, x => ∀ schema zs z, x.columns[col]? = some (.table schema zs) →
      zs[row]? = some z → Short ops (z.getD (.ofSchema schema))
  | _, _ => True

def Short : List Op → Sheet → Prop
  | [], _ => True
  | op :: ops, x => op.Short x ∧ Short ops (op.onSheet x)

end

mutual

theorem Op.run_holds (op : Op) {b : Nat} {x : Sheet} (short : op.Short x)
    (small : b + op.weight < Slot.countBound) :
    Edits b (b + op.weight) x op.run () (op.onSheet x) := by
  intro t t' s s' R h ok
  obtain ⟨⟨fits, -, most⟩, -⟩ := holds_mul.mp h
  have bounded : b < Slot.countBound := Nat.lt_of_le_of_lt (Nat.le_add_right ..) small
  match op with
  | .addColumn spec =>
      obtain ⟨_, ⟨t₁, s₁⟩, ran, ok⟩ := Edit.bind_ok.mp ok
      cases ok
      exact addColumn_holds h small ran
  | .addRows count =>
      obtain ⟨_, ⟨t₁, s₁⟩, ran, ok⟩ := Edit.bind_ok.mp ok
      cases ok
      exact addRows_holds h small ran
  | .insertRow row => exact insertRow_holds h small ok
  | .remove row =>
      exact (remove_holds h bounded ok).imp_left (holds_mono (Nat.le_add_right ..) _ _)
  | .clear => exact clear_holds h small ok
  | .setInt col row v | .setBool col row v | .setSingle col row v | .setDouble col row v
  | .setBytes col row v =>
      refine editCell_holds h (Nat.le_refl b) (fun inside y _ length => ?_) ok
      exact edits_set id (fun _ => rfl) (fun _ => rfl) (fun _ => rfl) id (length ▸ inside)
        (by omega)
  | .setLink col row target =>
      refine editCell_holds h (Nat.le_refl b) (fun inside y _ length => ?_) ok
      exact edits_set LinkColumn.values (fun _ => rfl) (fun _ => rfl) (fun _ => rfl)
        LinkColumn.editValues_ok (length ▸ inside) (by omega)
  | .setString col row v =>
      refine editCell_holds h (Nat.le_succ b) (fun inside y _ length => ?_) ok
      exact edits_text (.set row v) (fun _ => rfl) (fun _ => List.length_set)
        (fun vs same => by rw [TextColumn.Op.InRange]; omega) (by omega) small
  | .addLink col row target =>
      refine editCell_holds h (Nat.le_refl b) (fun inside y here length => ?_) ok
      exact edits_addLink (length ▸ inside) (by omega) fun lists same =>
        short lists (same ▸ here)
  | .adjustInt col d => exact editColumnOf_holds h (Nat.le_refl b) (fun _ _ _ => edits_adjust) ok
  | .addIndex col => exact addIndex_holds h small ok
  | .optimize col =>
      obtain ⟨_, ⟨t₁, s₁⟩, ran, ok⟩ := Edit.bind_ok.mp ok
      cases ok
      exact optimize_holds h small ran
  | .inCell col row ops =>
      exact editSubtable_holds h (Nat.le_add_right ..)
        (fun schema zs z here there => run_holds ops (short schema zs z here there) small) ok

theorem run_holds (ops : List Op) {b : Nat} {x : Sheet} (short : Short ops x)
    (small : b + weight ops < Slot.countBound) :
    Edits b (b + weight ops) x (run ops) () (onSheet ops x) := by
  intro t t' s s' R h ok
  match ops with
  | [] =>
      cases ok
      exact h
  | op :: ops =>
      rw [weight] at small
      obtain ⟨_, ⟨t₁, s₁⟩, first, ok⟩ := Edit.bind_ok.mp ok
      have h := op.run_holds short.1 (by omega) h first
      have h := run_holds ops short.2 (by omega) h ok
      rwa [Nat.add_assoc] at h

end

end ColumnStore.Table
