import ColumnStore.Proofs.Heap

set_option autoImplicit false

/-!
The memory limit over histories of blocks. The limit is compared with the size a slab is to have,
which is then rounded up to whole words: slabs of whole words stay within the limit, others may
exceed it by less than a word.
-/
namespace ColumnStore

namespace Store

variable {s s' : Store} {settings : StoreSettings} {limit base size slabSize : Nat}

theorem le_preferredSlabSize (s : Store) (size : Nat) : size ≤ s.preferredSlabSize size := by
  rw [preferredSlabSize]
  omega

theorem slabSizeFor_within (limited : s.settings.memoryLimit = some limit)
    (found : s.slabSizeFor? size = some slabSize) : s.slabBytes + slabSize ≤ limit := by
  simp only [slabSizeFor?, limited] at found
  split at found
  next fits => cases found; exact fits
  next =>
    split at found
    next fits => cases found; exact fits
    next => cases found

/-- The smallest slab that could be made holds just the block. -/
theorem slabSizeFor_none (limited : s.settings.memoryLimit = some limit) :
    s.slabSizeFor? size = none ↔ limit < s.slabBytes + size := by
  have least := le_preferredSlabSize s size
  simp only [slabSizeFor?, limited]
  split
  next => simp only [reduceCtorEq, false_iff]; omega
  next =>
    split
    next => simp only [reduceCtorEq, false_iff]; omega
    next => simp only [true_iff]; omega

theorem slabSizeFor_cases (found : s.slabSizeFor? size = some slabSize) :
    slabSize = s.preferredSlabSize size ∨ slabSize = size := by
  rw [slabSizeFor?] at found
  split at found
  next => cases found; exact .inl rfl
  next =>
    split at found
    next => cases found; exact .inl rfl
    next =>
      split at found
      next => cases found; exact .inr rfl
      next => cases found

theorem slabBytesFor_le (positive : 0 < slabSize) : slabBytesFor slabSize < slabSize + 8 := by
  rw [slabBytesFor, roundUp8]
  omega

theorem slabBytesFor_whole (positive : 0 < slabSize) (whole : 8 ∣ slabSize) :
    slabBytesFor slabSize = slabSize := by
  rw [slabBytesFor, roundUp8]
  omega

theorem lastSlabSize_addSlab (s : Store) (slabSize size : Nat) :
    (s.addSlab slabSize size).lastSlabSize = slabBytesFor slabSize :=
  Nat.add_sub_cancel_left ..

/-- What the limit leaves of the slabs of a store above `base`. -/
structure Metered (settings : StoreSettings) (limit base : Nat) (s : Store) : Prop where
  same : s.settings = settings
  base : s.baseline = base
  words : 8 ∣ s.slabBytes
  last : 8 ∣ s.lastSlabSize
  rounded : s.slabBytes ≤ roundUp8 limit
  within : 8 ∣ settings.minSlabSize → s.slabBytes ≤ limit

variable (limited : settings.memoryLimit = some limit)

theorem Metered.withMemory (metered : Metered settings limit base s) (m : Memory) :
    Metered settings limit base (s.withMemory m) :=
  { metered with }

theorem Metered.releaseMutable (metered : Metered settings limit base s) (r : Ref) (size : Nat) :
    Metered settings limit base (s.releaseMutable r size) :=
  { metered with }

theorem Metered.release (metered : Metered settings limit base s) (r : Ref) (size : Nat) :
    Metered settings limit base (s.release r size) := by
  rw [Store.release]
  split
  · exact { metered with }
  · exact metered.releaseMutable r size

include limited in
theorem Metered.addSlab (metered : Metered settings limit base s) (positive : 0 < size)
    (even : 8 ∣ size) (found : s.slabSizeFor? size = some slabSize) :
    Metered settings limit base (s.addSlab slabSize size) := by
  have fits := slabSizeFor_within (metered.same ▸ limited) found
  have least := le_slabSizeFor found
  have rounded := slabBytesFor_le (Nat.lt_of_lt_of_le positive least)
  have words := metered.words
  have whole := dvd_slabBytesFor slabSize
  refine ⟨metered.same, metered.base, Nat.dvd_add words whole,
    lastSlabSize_addSlab s slabSize size ▸ whole, ?_, fun divides => ?_⟩
  · show s.slabBytes + slabBytesFor slabSize ≤ roundUp8 limit
    rw [roundUp8]
    omega
  · show s.slabBytes + slabBytesFor slabSize ≤ limit
    have last := metered.last
    have word : 8 ∣ slabSize := by
      rcases slabSizeFor_cases found with rfl | rfl
      · rw [preferredSlabSize, metered.same]
        omega
      · exact even
    rw [slabBytesFor_whole (Nat.lt_of_lt_of_le positive least) word]
    exact fits

include limited in
theorem Metered.allocate (metered : Metered settings limit base s) (positive : 0 < size)
    (even : 8 ∣ size) : Metered settings limit base (s.allocate size).2 := by
  rw [Store.allocate]
  split
  next => exact { metered with }
  next =>
    split
    next => exact metered
    next found =>
      split
      next => exact metered.addSlab limited positive even found
      next => exact metered

include limited in
/-- With refs enough for all that the limit allows, nothing but the limit refuses a block. -/
theorem Metered.refused_iff (metered : Metered settings limit base s)
    (span : s.slabBytes + s.baseline = s.slabEnd) (room : base + roundUp8 limit ≤ addressSpace)
    (positive : 0 < size) :
    (s.allocate size).1 = .error (.outOfMemory size) ↔
      (∀ c ∈ s.free, c.size < size) ∧ limit < s.slabBytes + size := by
  have limited := metered.same ▸ limited
  rw [← FreeList.take_eq_none_iff, ← slabSizeFor_none limited, Store.allocate]
  cases s.free.take size with
  | some taken => simp only [reduceCtorEq, false_and]
  | none =>
      cases found : s.slabSizeFor? size with
      | none => simp only [and_self]
      | some slabSize =>
          have fits := slabSizeFor_within limited found
          have rounded :=
            slabBytesFor_le (Nat.lt_of_lt_of_le positive (le_slabSizeFor found))
          have words := metered.words
          have whole := dvd_slabBytesFor slabSize
          have enough : s.slabEnd + slabBytesFor slabSize ≤ addressSpace := by
            have filled : s.slabBytes + slabBytesFor slabSize ≤ roundUp8 limit := by
              rw [roundUp8]
              omega
            rw [← span, metered.base, Nat.add_right_comm, Nat.add_comm]
            exact Nat.le_trans (Nat.add_le_add_left filled base) room
          simp only [enough, if_true, reduceCtorEq, and_false]

end Store

namespace Heap

variable {h : Heap} {settings : StoreSettings} {limit base size i : Nat}

theorem Fresh.metered (fresh : Fresh settings h) :
    h.store.Metered settings limit h.store.baseline := by
  cases fresh with
  | empty => exact ⟨rfl, rfl, ⟨0, rfl⟩, ⟨0, rfl⟩, Nat.zero_le _, fun _ => Nat.zero_le _⟩
  | attached bound valid =>
      obtain rfl := Store.ofImage_eq valid
      refine ⟨rfl, rfl, ⟨0, rfl⟩, ⟨0, ?_⟩, Nat.zero_le _, fun _ => Nat.zero_le _⟩
      exact Nat.sub_self _

theorem step_metered {op : Op} (limited : settings.memoryLimit = some limit)
    (metered : h.store.Metered settings limit base) (legal : op.Legal) :
    (h.step op).store.Metered settings limit base := by
  have at_ {i : Nat} {f : Chunk → Heap}
      (steps : ∀ c, (f c).store.Metered settings limit base) :
      (h.live[i]?.elim h f).store.Metered settings limit base := by
    cases h.live[i]? with
    | none => exact metered
    | some c => exact steps c
  cases op with
  | allocate size =>
      have allocated := metered.allocate limited legal.1 legal.2
      rw [step, allocate, StoreM.allocate]
      split <;> simp_all only
  | reallocate i size =>
      refine at_ fun c => ?_
      have allocated := metered.allocate limited legal.1 legal.2
      rcases taken : h.store.allocate size with ⟨e | r, s⟩
      · rwa [reallocate_error i c taken]
      · rw [taken] at allocated
        rw [reallocate_ok i c taken]
        exact (allocated.withMemory _).release c.start c.size
  | free i => exact at_ fun c => metered.release c.start c.size
  | write i offset data =>
      refine at_ fun c => ?_
      rw [write]
      split
      next => exact { metered with }
      next => exact metered

theorem run_metered {ops : List Op} (limited : settings.memoryLimit = some limit)
    (metered : h.store.Metered settings limit base) (legal : ∀ op ∈ ops, op.Legal) :
    (h.run ops).store.Metered settings limit base := by
  induction ops generalizing h with
  | nil => exact metered
  | cons op ops ih =>
      obtain ⟨first, rest⟩ := List.forall_mem_cons.mp legal
      exact ih (step_metered limited metered first) rest

theorem allocate_error {e : Error} {s : Store}
    (failed : h.store.allocate size = (.error e, s)) : h.allocate size = h := by
  rw [allocate, StoreM.allocate, failed]
  cases Store.allocate_error failed
  rfl

/-- The limit decides alone which blocks are refused, and a refusal changes nothing. -/
structure Limited (settings : StoreSettings) (limit : Nat) (h : Heap) : Prop where
  rounded : h.store.slabBytes ≤ Store.roundUp8 limit
  within : 8 ∣ settings.minSlabSize → h.store.slabBytes ≤ limit
  refused : ∀ size, 0 < size → ((h.store.allocate size).1 = .error (.outOfMemory size) ↔
    (∀ c ∈ h.store.free, c.size < size) ∧ limit < h.store.slabBytes + size)
  kept : ∀ size, (h.store.allocate size).1 = .error (.outOfMemory size) →
    h.step (.allocate size) = h ∧ ∀ i, h.step (.reallocate i size) = h

theorem run_limited {ops : List Op} (fresh : Fresh settings h)
    (limited : settings.memoryLimit = some limit)
    (room : h.store.baseline + Store.roundUp8 limit ≤ Store.addressSpace)
    (legal : ∀ op ∈ ops, op.Legal) : (h.run ops).Limited settings limit := by
  have metered := run_metered limited fresh.metered legal
  have span := (run_sound fresh.sound legal).splits.span
  refine ⟨metered.rounded, metered.within, fun size positive => ?_, fun size refused => ?_⟩
  · exact metered.refused_iff limited span room positive
  · have failed : (h.run ops).store.allocate size =
        (.error (.outOfMemory size), ((h.run ops).store.allocate size).2) := Prod.ext refused rfl
    refine ⟨allocate_error failed, fun i => ?_⟩
    rw [step]
    cases (h.run ops).live[i]? with
    | none => rfl
    | some c => exact reallocate_error i c failed

/-- One block of a word, in a slab that is asked for 12 bytes and gets 16. -/
example : (run ⟨.empty { minSlabSize := 12, memoryLimit := some 12 }, []⟩
    [.allocate 8]).store.slabBytes = Store.roundUp8 12 := by decide

end Heap

end ColumnStore
