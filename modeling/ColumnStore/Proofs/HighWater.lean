import ColumnStore.Proofs.PackedRun
import ColumnStore.Proofs.Written

set_option autoImplicit false

/-!
The width of a node through a run of operations: the high-water mark of the values that were written
since the width was last taken back to zero, however long the list gets.
-/
namespace ColumnStore

namespace Node

variable {s₀ s s' : Store} {n n' : Node} {vs log : List Int64} {ops : List Op} {w : Nat}

/-- All that was written since the last reset, when `log` was and `ops` follow on the list `vs`. -/
def writtenSince : List Op → List Int64 → List Int64 → List Int64
  | [], _, log => log
  | op :: ops, vs, log =>
      writtenSince ops (op.onList vs) (if op.resets then [] else log ++ op.written vs)

/-- Every operation is in range of the list that it finds. -/
def EachInRange : List Op → List Int64 → Prop
  | [], _ => True
  | op :: ops, vs => op.InRange vs ∧ EachInRange ops (op.onList vs)

instance decidableEachInRange : (ops : List Op) → (vs : List Int64) → Decidable (EachInRange ops vs)
  | [], _ => .isTrue True.intro
  | op :: ops, vs =>
      have := decidableEachInRange ops (op.onList vs)
      inferInstanceAs (Decidable (_ ∧ _))

/-! ### Runs -/

theorem run_reached (lists : Lists s n vs) (width : n.width = Width.ofValues log)
    (inRange : EachInRange ops vs) (ok : run ops (n, s) = (.ok (), (n', s'))) :
    Reached s n s' n' (onList ops vs) (Width.ofValues (writtenSince ops vs log)) := by
  -- Each step raises the width by what it writes, or resets it together with the log.
  induction ops generalizing s n vs log with
  | nil =>
      obtain ⟨-, same⟩ := Edit.pure_ok.mp ok
      cases same
      exact width ▸ lists.reached
  | cons op ops ih =>
      rw [run, Edit.bind_ok] at ok
      obtain ⟨_, ⟨n₁, s₁⟩, first, rest⟩ := ok
      have reached := op.run_lists lists inRange.1 first
      have mark : n₁.width = Width.ofValues (if op.resets then [] else log ++ op.written vs) := by
        rw [reached.width, width]
        split
        next => rfl
        next => exact (Width.raise_append 0 log _).symm
      exact reached.trans (ih reached.lists mark inRange.2 rest)

theorem writtenSince_adds (adds : ∀ op ∈ ops, ∃ v, op = .add v) (vs : List Int64) :
    writtenSince ops vs vs = onList ops vs := by
  induction ops generalizing vs with
  | nil => rfl
  | cons op ops ih =>
      obtain ⟨v, rfl⟩ := adds op (by simp)
      exact ih (fun op inside => adds op (by simp [inside])) (vs ++ [v])

theorem created_lists {role : Role} (sound : s₀.Sound)
    (created : createPacked role s₀ = (.ok n, s)) : Lists s n [] ∧ n.width = Width.ofValues [] := by
  obtain ⟨packed, -, head, -⟩ := createPacked_ok sound created
  refine ⟨packed.lists, ?_⟩
  rw [Node.width, head]
  rfl

/-- After a run the width is that of the values written since the last reset. So it fits every
element, and it is the least that does if the values were appended. -/
theorem run_width_of_written {role : Role} (sound : s₀.Sound)
    (created : createPacked role s₀ = (.ok n, s)) (inRange : EachInRange ops [])
    (ok : run ops (n, s) = (.ok (), (n', s'))) :
    n'.toList s'.memory = onList ops [] ∧
      n'.width = Width.ofValues (writtenSince ops [] []) ∧
      (∀ v ∈ onList ops [], Width.lower n'.width ≤ v ∧ v ≤ Width.upper n'.width) ∧
      ((∀ op ∈ ops, ∃ v, op = .add v) →
        ∀ w ∈ Width.legal, (∀ v ∈ onList ops [], Width.fits w v = true) → n'.width ≤ w) := by
  obtain ⟨lists, width⟩ := created_lists sound created
  have reached := run_reached lists width inRange ok
  refine ⟨reached.lists.list, reached.width, ?_, ?_⟩
  · intro v inside
    simpa [Width.fits] using reached.lists.fits inside
  · intro adds w legal fits
    rw [reached.width, writtenSince_adds adds]
    exact (Width.raise_le legal).mpr ⟨Nat.zero_le w, fits⟩

theorem run_of_isOk (ops : List Op) (succeeds : ((do Edit.on (← createPacked .plain) (run ops) :
      StoreM (Unit × Node)) (.empty {})).1.isOk = true) :
    ∃ n s n' s', createPacked .plain (.empty {}) = (.ok n, s) ∧
      run ops (n, s) = (.ok (), (n', s')) := by
  rcases result : (do Edit.on (← createPacked .plain) (run ops) : StoreM (Unit × Node))
      (.empty {}) with ⟨e | ⟨_, n'⟩, s'⟩
  · rw [result] at succeeds
    cases succeeds
  · obtain ⟨n, s, created, ran⟩ := StoreM.bind_ok.mp result
    exact ⟨n, s, n', s', created, Edit.on_ok.mp ran⟩

/-- The width rises to 32, stays there when the value is erased, and begins anew at zero. -/
def mixedWidths : List Op :=
  [.add 3, .add 300, .insert 1 (-70000), .erase 1, .adjustRange 0 2 5, .setAllToZero, .add 2]

def risingWidths : List Op := [.add 0, .add 3, .add 300]

theorem run_width_of_written_mixed :
    (∃ n s n' s', createPacked .plain (.empty {}) = (.ok n, s) ∧
      run mixedWidths (n, s) = (.ok (), (n', s')) ∧ n'.toList s'.memory = [0, 0, 2] ∧
      n'.width = 2) ∧
    ∃ n s n' s', createPacked .plain (.empty {}) = (.ok n, s) ∧
      run risingWidths (n, s) = (.ok (), (n', s')) ∧ n'.width = 16 ∧
      ∀ w ∈ Width.legal, (∀ v ∈ [0, 3, 300], Width.fits w v = true) → 16 ≤ w := by
  constructor
  · obtain ⟨n, s, n', s', created, ok⟩ := run_of_isOk mixedWidths (by decide +kernel)
    obtain ⟨list, width, -⟩ :=
      run_width_of_written (Store.sound_empty {}) created (by decide) ok
    exact ⟨n, s, n', s', created, ok, list, width⟩
  · obtain ⟨n, s, n', s', created, ok⟩ := run_of_isOk risingWidths (by decide +kernel)
    obtain ⟨-, width, -, least⟩ :=
      run_width_of_written (Store.sound_empty {}) created (by decide) ok
    have width : n'.width = 16 := width
    rw [width] at least
    exact ⟨n, s, n', s', created, ok, width, least (by simp [risingWidths])⟩

end Node

end ColumnStore
