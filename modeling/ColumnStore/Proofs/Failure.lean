import ColumnStore.Proofs.HighWater

set_option autoImplicit false

/-!
Edits of a packed node that fail. An edit of one step fails before it writes: at most the node was
copied out of the image, and no accessor sees that. A sum over many elements stops at the first
value for which the node cannot be widened, and what is before it has been summed.
-/
namespace ColumnStore

namespace Node

variable {s s' s₁ : Store} {n n' n₁ : Node} {vs vs' : List Int64} {e : Error} {v d limit : Int64}

/-! ### Edits of one step -/

/-- The edit did nothing, or nothing but a copy. -/
def Stopped (s : Store) (n : Node) (s' : Store) (n' : Node) : Prop :=
  (n' = n ∧ s' = s) ∨ copyOnWrite (n, s) = (.ok (), (n', s'))

theorem copyOnWrite_agrees (agrees : Agrees s n) (copy : copyOnWrite (n, s) = (.ok (), (n', s'))) :
    Agrees s' n' ∧ s'.baseline ≤ n'.ref ∧ n'.head = { n.head with capacity := n'.capacity } ∧
      SameData s.memory n s'.memory n' := by
  rcases Nat.lt_or_ge n.ref s.baseline with below | mutable
  · have moved := copyOnWrite_moved (agrees.held below) copy
    exact ⟨moved.held.toAgrees, moved.mutable, moved.head, moved.data⟩
  · cases (copyOnWrite_mutable mutable).symm.trans copy
    exact ⟨agrees, mutable, rfl, fun _ _ => rfl⟩

theorem Stopped.after_copy (agrees : Agrees s n) (copy : copyOnWrite (n, s) = (.ok (), (n₁, s₁)))
    (stopped : Stopped s₁ n₁ s' n') : Stopped s n s' n' := by
  rcases stopped with ⟨rfl, rfl⟩ | again
  · exact .inr copy
  · -- What was copied is not copied again.
    obtain ⟨-, mutable, -⟩ := copyOnWrite_agrees agrees copy
    cases (copyOnWrite_mutable mutable).symm.trans again
    exact .inr copy

theorem stopped_of_copy {f : Unit → Edit Node Unit} (agrees : Agrees s n)
    (next : ∀ {n₁ s₁}, Agrees s₁ n₁ → f () (n₁, s₁) = (.error e, (n', s')) → Stopped s₁ n₁ s' n')
    (failed : (copyOnWrite >>= f) (n, s) = (.error e, (n', s'))) : Stopped s n s' n' := by
  rcases Edit.bind_error.mp failed with failed | ⟨_, ⟨n₁, s₁⟩, copy, failed⟩
  · exact .inl (copyOnWrite_error failed)
  · exact (next (copyOnWrite_agrees agrees copy).1 failed).after_copy agrees copy

theorem ensureWidth_stopped (agrees : Agrees s n)
    (failed : ensureWidth v (n, s) = (.error e, (n', s'))) :
    Stopped s n s' n' ∧ Width.fits n.width v = false := by
  simp only [ensureWidth, Edit.self_bind] at failed
  cases fits : Width.fits n.width v with
  | true =>
      simp only [fits, Bool.not_true, Bool.false_eq_true, if_false] at failed
      cases failed
  | false =>
      simp only [fits, Bool.not_false, if_true] at failed
      refine ⟨stopped_of_copy agrees ?_ failed, rfl⟩
      intro n₁ s₁ _ failed
      rcases Edit.bind_error.mp failed with failed | ⟨_, q, -, failed⟩
      · exact .inl (reserve_error failed)
      · cases failed

theorem set_stopped {i : Nat} (agrees : Agrees s n)
    (failed : set i v (n, s) = (.error e, (n', s'))) : Stopped s n s' n' := by
  refine stopped_of_copy agrees ?_ failed
  intro n₁ s₁ agrees₁ failed
  rcases Edit.bind_error.mp failed with failed | ⟨_, q, -, failed⟩
  · exact (ensureWidth_stopped agrees₁ failed).1
  · cases failed

theorem insert_stopped {i : Nat} (agrees : Agrees s n)
    (failed : insert i v (n, s) = (.error e, (n', s'))) : Stopped s n s' n' := by
  refine stopped_of_copy agrees ?_ failed
  intro n₁ s₁ _ failed
  simp only [Edit.self_bind] at failed
  rcases Edit.bind_error.mp failed with failed | ⟨_, q, -, failed⟩
  · exact .inl (reserve_error failed)
  · cases failed

/-- Where only the copy can fail. -/
theorem stopped_of_total {f : Unit → Edit Node Unit}
    (total : ∀ p, ∃ q, f () p = (.ok (), q))
    (failed : (copyOnWrite >>= f) (n, s) = (.error e, (n', s'))) : Stopped s n s' n' := by
  rcases Edit.bind_error.mp failed with failed | ⟨_, p, -, failed⟩
  · exact .inl (copyOnWrite_error failed)
  · obtain ⟨q, ok⟩ := total p
    cases ok.symm.trans failed

theorem eraseRange_stopped {start stop : Nat}
    (failed : eraseRange start stop (n, s) = (.error e, (n', s'))) : Stopped s n s' n' := by
  rw [eraseRange] at failed
  split at failed
  next =>
    refine stopped_of_total (fun p => ?_) failed
    simp only [Edit.self_bind, Edit.modifyMemory_bind, setSize, setKnownSize, Edit.update_bind,
      Edit.modifyMemory_apply]
    exact ⟨_, rfl⟩
  next => cases failed

theorem truncate_stopped {size : Nat} (failed : truncate size (n, s) = (.error e, (n', s'))) :
    Stopped s n s' n' := by
  refine stopped_of_total (fun p => ?_) failed
  simp only [setSize, setKnownSize, bind_assoc, Edit.update_bind, Edit.self_bind,
    Edit.modifyMemory_bind]
  split
  next => exact ⟨_, rfl⟩
  next => exact ⟨_, rfl⟩

theorem setAllToZero_stopped (failed : setAllToZero (n, s) = (.error e, (n', s'))) :
    Stopped s n s' n' := by
  refine stopped_of_total (fun p => ?_) failed
  simp only [setWidth, setKnownWidth, Edit.update_bind, Edit.self_bind, Edit.modifyMemory_apply]
  exact ⟨_, rfl⟩

theorem setContext_stopped {value : Bool} (failed : setContext value (n, s) = (.error e, (n', s'))) :
    Stopped s n s' n' := by
  simp only [setContext, Edit.self_bind] at failed
  split at failed
  next =>
    refine stopped_of_total (fun p => ?_) failed
    simp only [Edit.update_bind, Edit.self_bind, Edit.modifyMemory_apply]
    exact ⟨_, rfl⟩
  next => cases failed

def Op.isBulk : Op → Bool
  | adjustRange .. | adjustAtLeast .. => true
  | _ => false

theorem Op.stopped {op : Op} (agrees : Agrees s n) (single : op.isBulk = false)
    (failed : op.run (n, s) = (.error e, (n', s'))) : Stopped s n s' n' := by
  cases op with
  | add v =>
      rw [run, Node.add, Edit.self_bind] at failed
      exact insert_stopped agrees failed
  | insert i v => exact insert_stopped agrees failed
  | set i v => exact set_stopped agrees failed
  | erase i =>
      rw [run, Node.erase] at failed
      exact eraseRange_stopped failed
  | eraseRange start stop => exact eraseRange_stopped failed
  | truncate size => exact truncate_stopped failed
  | clear =>
      rw [run, Node.clear] at failed
      exact truncate_stopped failed
  | setAllToZero => exact setAllToZero_stopped failed
  | adjust i d =>
      rw [run, Node.adjust, Edit.self_bind, Edit.read_bind] at failed
      exact set_stopped agrees failed
  | adjustRange start stop d => cases single
  | adjustAtLeast limit d => cases single
  | ensureWidth v => exact (ensureWidth_stopped agrees failed).1
  | setContext value => exact setContext_stopped failed
  | copyOnWrite => exact .inl (copyOnWrite_error failed)

/-! ### What an accessor sees -/

/-- What an accessor shows of a node: all but where it lies and the room it has. -/
structure Sight where
  elements : List Int64
  size : Nat
  width : Nat
  inner : Bool
  hasRefs : Bool
  context : Bool
  deriving DecidableEq, Repr

def sight (m : Memory) (n : Node) : Sight where
  elements := n.toList m
  size := n.size
  width := n.width
  inner := n.isInner
  hasRefs := n.hasRefs
  context := n.head.context

theorem sight_of_data {m m' : Memory} (legal : n.width ∈ Width.legal) (layout : n.head.layout = .bits)
    (head : n'.head = { n.head with capacity := n'.capacity }) (data : SameData m n m' n') :
    n'.sight m' = n.sight m := by
  have width : n'.width = n.width := by rw [Node.width, head]
  have size : n'.size = n.size := by rw [Node.size, head]
  have list := toList_of_data legal layout width size data
  rw [sight, sight, list, width, size, Node.isInner, Node.hasRefs, head]

/-- An accessor of the header in memory shows the same, when the header can hold the size. -/
theorem Agrees.sight_load (agrees : Agrees s n) (layout : n.head.layout = .bits)
    (small : n.size ≤ maxSize) : (load s.memory n.ref).sight s.memory = n.sight s.memory := by
  have size : n.size < 2 ^ 24 := Nat.lt_of_le_of_lt small (by decide)
  have head : s.memory.header n.ref =
      { n.head with capacity := (s.memory.header n.ref).capacity } := by
    rw [agrees.header, Header.wrap, Nat.mod_eq_of_lt size]
  exact sight_of_data agrees.legal layout head fun _ _ => rfl

/-- A single edit that fails is not seen, neither by its accessor nor by another one of the node:
even when the node was copied out of the image, the copy shows what the node did. -/
theorem failure_unseen {op : Op} (agrees : Agrees s n) (layout : n.head.layout = .bits)
    (small : n.size ≤ maxSize) (single : op.isBulk = false)
    (failed : op.run (n, s) = (.error e, (n', s'))) :
    n'.sight s'.memory = n.sight s.memory ∧
      (load s'.memory n'.ref).sight s'.memory = n.sight s.memory := by
  rcases op.stopped agrees single failed with ⟨rfl, rfl⟩ | copy
  · exact ⟨rfl, agrees.sight_load layout small⟩
  · obtain ⟨agrees', -, head, data⟩ := copyOnWrite_agrees agrees copy
    have same := sight_of_data agrees.legal layout head data
    have layout' : n'.head.layout = .bits := by
      rw [head]
      exact layout
    have small' : n'.size ≤ maxSize := by
      rw [Node.size, head]
      exact small
    exact ⟨same, (agrees'.sight_load layout' small').trans same⟩

/-- An image of sixteen elements of one bit. -/
def sixteenBits : ByteArray :=
  ⟨#[24, 0, 0, 0, 0, 0, 0, 0, 0, 0, 0, 0, 0, 0, 0, 0, 84, 45, 68, 66, 2, 0, 0, 0,
    0, 0, 16, 0, 1, 0, 0, 16, 5, 128, 0, 0, 0, 0, 0, 0,
    24, 0, 0, 0, 0, 0, 0, 0, 177, 157, 154, 125, 0, 0, 0, 0, 200, 38, 229, 55, 82, 18, 52, 48]⟩

def tightStore : Store :=
  { Store.empty { minSlabSize := 128, memoryLimit := some 128 } with
    attached := true
    baseline := 64
    memory := ⟨sixteenBits⟩ }

theorem ofImage_sixteenBits : Store.ofImage tightStore.settings sixteenBits = .ok (tightStore, 24) := by
  have valid : Image.validate sixteenBits = .ok 24 := by decide +kernel
  rw [Store.ofImage, valid]
  rfl

/-- The node is copied out of the image, and then there is no room to widen it. -/
theorem failure_unseen_copied :
    ∃ n n' s', Store.ofImage tightStore.settings sixteenBits = .ok (tightStore, n.ref) ∧
      n.ref < tightStore.baseline ∧ tightStore.baseline ≤ n'.ref ∧
      (Op.set 0 (2 ^ 40)).run (n, tightStore) = (.error (.outOfMemory 160), (n', s')) ∧
      n'.sight s'.memory = n.sight tightStore.memory ∧
      (load s'.memory n'.ref).sight s'.memory = n.sight tightStore.memory := by
  have sound := Store.sound_ofImage (by decide) ofImage_sixteenBits
  have agrees : Agrees tightStore (load tightStore.memory 24) :=
    agrees_load sound (by decide +kernel)
  have result : ((Op.set 0 (2 ^ 40)).run (load tightStore.memory 24, tightStore)).1 =
      .error (.outOfMemory 160) := by decide +kernel
  have copied : tightStore.baseline ≤
      ((Op.set 0 (2 ^ 40)).run (load tightStore.memory 24, tightStore)).2.1.ref := by decide +kernel
  rcases failed : (Op.set 0 (2 ^ 40)).run (load tightStore.memory 24, tightStore) with ⟨r, n', s'⟩
  rw [failed] at result copied
  cases result
  obtain ⟨same, reloaded⟩ :=
    failure_unseen agrees (by decide +kernel) (by decide +kernel) rfl failed
  exact ⟨_, n', s', ofImage_sixteenBits, by decide, copied, failed, same, reloaded⟩

/-! ### Sums over many elements -/

/-- A sum over many elements left `vs'` of `vs` when it could not write `v`. -/
structure StoppedAt (s : Store) (n : Node) (s' : Store) (n' : Node) (vs vs' : List Int64)
    (v : Int64) : Prop where
  reached : Reached s n s' n' vs' n'.width
  wider : n.width ≤ n'.width
  outgrown : s.baseline ≤ n.ref → Width.fits n'.width v = false
  cause : vs' = vs ∨ Width.fits n'.width v = false

theorem Stopped.reached (lists : Lists s n vs) (stopped : Stopped s n s' n') :
    Reached s n s' n' vs n.width := by
  rcases stopped with ⟨rfl, rfl⟩ | copy
  · exact lists.reached
  · exact (copyOnWrite_lists lists copy).1

theorem adjust_stopped {i : Nat} (lists : Lists s n vs) (inside : i < vs.length)
    (failed : adjust i d (n, s) = (.error e, (n', s'))) : StoppedAt s n s' n' vs vs (vs[i] + d) := by
  rw [adjust, Edit.self_bind, Edit.read_bind, lists.get inside] at failed
  have reached := (set_stopped lists.held.toAgrees failed).reached lists
  have width := reached.width
  refine ⟨by rwa [width], Nat.le_of_eq width.symm, ?_, .inl rfl⟩
  intro mutable
  rw [width]
  -- A node that can be written to is not copied, so it was the width that failed.
  rw [set, Edit.bind_apply, copyOnWrite_mutable mutable] at failed
  rcases Edit.bind_error.mp failed with failed | ⟨_, q, -, failed⟩
  · exact (ensureWidth_stopped lists.held.toAgrees failed).2
  · cases failed

theorem StoppedAt.after_sum {vs₁ : List Int64} {w : Nat} (first : Reached s n s₁ n₁ vs₁ w)
    (raised : n.width ≤ w) (mutable : s₁.baseline ≤ n₁.ref)
    (stopped : StoppedAt s₁ n₁ s' n' vs₁ vs' v) : StoppedAt s n s' n' vs vs' v where
  reached := first.trans stopped.reached
  wider := Nat.le_trans raised (first.width ▸ stopped.wider)
  -- What follows a sum that was written finds a node that is not copied any more.
  outgrown _ := stopped.outgrown mutable
  cause := .inr (stopped.outgrown mutable)

theorem StoppedAt.unchanged (stopped : StoppedAt s n s' n' vs vs' v) (legal : n.width ∈ Width.legal)
    (fits : Width.fits n.width v = true) : Lists s' n' vs := by
  rcases stopped.cause with same | outgrown
  · exact same ▸ stopped.reached.lists
  · -- The node only got wider, so the value would still fit.
    have := Width.fits_mono legal stopped.reached.lists.legal stopped.wider fits
    rw [outgrown] at this
    cases this

/-- A failed sum over a range stops at an element `k`: those before it are summed, and those from
there on are not. -/
theorem adjustFrom_stops {i count : Nat} (lists : Lists s n vs) (inside : i + count ≤ vs.length)
    (failed : adjustFrom d i count (n, s) = (.error e, (n', s'))) :
    ∃ k, ∃ here : k < vs.length, i ≤ k ∧ k < i + count ∧
      StoppedAt s n s' n' vs (addBetween i k d vs) (vs[k] + d) := by
  -- What the rest leaves of the list that the first sum left is what the whole leaves of `vs`.
  induction count generalizing i n s vs with
  | zero => cases failed
  | succ count ih =>
      have here : i < vs.length := by omega
      rw [adjustFrom] at failed
      rcases Edit.bind_error.mp failed with failed | ⟨_, ⟨n₁, s₁⟩, first, failed⟩
      · refine ⟨i, here, Nat.le_refl i, by omega, ?_⟩
        rw [addBetween_empty (Nat.le_refl i)]
        exact adjust_stopped lists here failed
      · obtain ⟨reached, mutable⟩ := adjust_lists lists here first
        obtain ⟨k, here', low, high, stopped⟩ := ih reached.lists (by simp; omega) failed
        rw [List.length_modify] at here'
        rw [addBetween_succ _ _ (by omega), List.getElem_modify, if_neg (by omega)] at stopped
        refine ⟨k, here', by omega, by omega, ?_⟩
        exact .after_sum reached (Width.le_raise lists.legal _) mutable stopped

theorem adjustRange_stops {start stop : Nat} (lists : Lists s n vs) (inside : stop ≤ vs.length)
    (failed : adjustRange start stop d (n, s) = (.error e, (n', s'))) :
    ∃ k, ∃ here : k < vs.length, start ≤ k ∧ k < stop ∧
      StoppedAt s n s' n' vs (addBetween start k d vs) (vs[k] + d) := by
  rw [adjustRange] at failed
  by_cases empty : stop ≤ start
  · rw [Nat.sub_eq_zero_of_le empty] at failed
    cases failed
  · have whole : start + (stop - start) = stop := by omega
    obtain ⟨k, here, low, high, stopped⟩ := adjustFrom_stops lists (by omega) failed
    exact ⟨k, here, low, whole ▸ high, stopped⟩

theorem adjustRange_atomic {start stop : Nat} (lists : Lists s n vs) (inside : stop ≤ vs.length)
    (fits : ∀ v ∈ sumsBetween start stop d vs, Width.fits n.width v = true)
    (failed : adjustRange start stop d (n, s) = (.error e, (n', s'))) : Lists s' n' vs := by
  obtain ⟨k, here, low, high, stopped⟩ := adjustRange_stops lists inside failed
  apply stopped.unchanged lists.legal (fits _ _)
  rw [sumsBetween, List.mem_map]
  refine ⟨vs[k], List.mem_iff_getElem.mpr ⟨k - start, by simp; omega, ?_⟩, rfl⟩
  rw [List.getElem_drop, List.getElem_take]
  congr 1
  omega

theorem addAtLeast_take_succ (limit d : Int64) {i k : Nat} (before : i < k) (inside : i < vs.length) :
    addAtLeast limit d (i + 1) ((if limit ≤ vs[i] then vs.modify i (· + d) else vs).take k) ++
        (if limit ≤ vs[i] then vs.modify i (· + d) else vs).drop k =
      addAtLeast limit d i (vs.take k) ++ vs.drop k := by
  have place : i < (vs.take k).length := by
    rw [List.length_take]
    omega
  rw [← addAtLeast_succ limit d place, List.getElem_take]
  split
  next => rw [List.take_modify, List.drop_modify_of_lt _ _ _ _ before]
  next => rfl

theorem adjustFromAtLeast_stops {i count : Nat} (lists : Lists s n vs)
    (whole : i + count = vs.length)
    (failed : adjustFromAtLeast limit d i count (n, s) = (.error e, (n', s'))) :
    ∃ k, ∃ here : k < vs.length, i ≤ k ∧ limit ≤ vs[k] ∧
      StoppedAt s n s' n' vs (addAtLeast limit d i (vs.take k) ++ vs.drop k) (vs[k] + d) := by
  induction count generalizing i n s vs with
  | zero => cases failed
  | succ count ih =>
      have here : i < vs.length := by omega
      rw [adjustFromAtLeast, Edit.self_bind, Edit.read_bind, lists.get here] at failed
      by_cases large : limit ≤ vs[i]
      · rw [if_pos large] at failed
        rcases Edit.bind_error.mp failed with failed | ⟨_, ⟨n₁, s₁⟩, first, failed⟩
        · refine ⟨i, here, Nat.le_refl i, large, ?_⟩
          rw [addAtLeast_all limit d (by simp), List.take_append_drop]
          exact adjust_stopped lists here failed
        · obtain ⟨reached, mutable⟩ := adjust_lists lists here first
          obtain ⟨k, here', low, large', stopped⟩ :=
            ih reached.lists (by rw [List.length_modify]; omega) failed
          rw [List.length_modify] at here'
          have next := addAtLeast_take_succ limit d low here
          rw [if_pos large] at next
          rw [next] at stopped
          rw [List.getElem_modify, if_neg (by omega)] at large' stopped
          refine ⟨k, here', by omega, large', ?_⟩
          exact .after_sum reached (Width.le_raise lists.legal _) mutable stopped
      · -- A smaller element is passed over, and no value is tried on the node.
        rw [if_neg large] at failed
        obtain ⟨k, here', low, large', stopped⟩ := ih lists (by omega) failed
        have next := addAtLeast_take_succ limit d low here
        rw [if_neg large] at next
        exact ⟨k, here', by omega, large', next ▸ stopped⟩

theorem adjustAtLeast_stops (lists : Lists s n vs)
    (failed : adjustAtLeast limit d (n, s) = (.error e, (n', s'))) :
    ∃ k, ∃ here : k < vs.length, limit ≤ vs[k] ∧
      StoppedAt s n s' n' vs (addAtLeast limit d 0 (vs.take k) ++ vs.drop k) (vs[k] + d) := by
  rw [adjustAtLeast, Edit.self_bind] at failed
  have whole : 0 + n.size = vs.length := by rw [Nat.zero_add, lists.length]
  obtain ⟨k, here, -, large, stopped⟩ := adjustFromAtLeast_stops lists whole failed
  exact ⟨k, here, large, stopped⟩

theorem adjustAtLeast_atomic (lists : Lists s n vs)
    (fits : ∀ v ∈ vs, limit ≤ v → Width.fits n.width (v + d) = true)
    (failed : adjustAtLeast limit d (n, s) = (.error e, (n', s'))) : Lists s' n' vs := by
  obtain ⟨k, here, large, stopped⟩ := adjustAtLeast_stops lists failed
  exact stopped.unchanged lists.legal (fits _ (List.getElem_mem here) large)

/-! ### Any attempts -/

/-- Operations in range were attempted one after the other, and some of them may have failed. -/
inductive Attempts (s₀ : Store) (n₀ : Node) : Store → Node → Prop where
  | start : Attempts s₀ n₀ s₀ n₀
  | step {s s' : Store} {n n' : Node} {op : Op} {r : Except Error Unit} (before : Attempts s₀ n₀ s n)
      (inRange : op.InRange (n.toList s.memory)) (run : op.run (n, s) = (r, (n', s'))) :
      Attempts s₀ n₀ s' n'

theorem Op.attempt_lists {op : Op} {r : Except Error Unit} (lists : Lists s n vs)
    (inRange : op.InRange vs) (run : op.run (n, s) = (r, (n', s'))) :
    ∃ vs', Lists s' n' vs' := by
  rcases r with e | ⟨⟨⟩⟩
  · cases op with
    | adjustRange start stop d =>
        obtain ⟨k, _, _, _, stopped⟩ := adjustRange_stops lists inRange run
        exact ⟨_, stopped.reached.lists⟩
    | adjustAtLeast limit d =>
        obtain ⟨k, _, _, stopped⟩ := adjustAtLeast_stops lists run
        exact ⟨_, stopped.reached.lists⟩
    | _ =>
        exact ⟨_, ((Op.stopped lists.held.toAgrees rfl run).reached lists).lists⟩
  · exact ⟨_, (op.run_lists lists inRange run).lists⟩

/-- Whatever was attempted, the node agrees with the header in memory. -/
theorem agrees_of_attempts {s₀ : Store} {n₀ : Node} (fresh : Fresh s₀ n₀)
    (attempts : Attempts s₀ n₀ s n) : Agrees s n ∧ n.head.layout = .bits := by
  -- A failed attempt leaves some list behind too, and that is all the next one needs.
  have lists : ∃ vs, Lists s n vs := by
    induction attempts with
    | start => exact ⟨_, fresh.packed.lists⟩
    | step before inRange run ih =>
        obtain ⟨vs, lists⟩ := ih
        rw [lists.list] at inRange
        exact Op.attempt_lists lists inRange run
  obtain ⟨vs, lists⟩ := lists
  exact ⟨lists.held.toAgrees, lists.layout⟩

end Node

end ColumnStore
