import ColumnStore.Proofs.BytesLeaf
import ColumnStore.Proofs.Image
import ColumnStore.Proofs.Replay

set_option autoImplicit false

/-!
Runs of operations on a blob and on a leaf of byte strings. Bytes behind the last value appear in no
run, so that the last end is always the size of the blob.
-/
namespace ColumnStore

open Replay (runAll onLists AllInRange)

namespace Blob

/-- What the other edits of a blob are made of. -/
inductive Op where
  | replace (start stop : Nat) (data : ByteArray)
  | truncate (size : Nat)

instance : Replay Op Blob UInt8 where
  run
    | .replace start stop data => Blob.replace start stop data
    | .truncate size => Blob.truncate size
  onList
    | .replace start stop data, bs => bs.take start ++ data.data.toList ++ bs.drop stop
    | .truncate size, bs => bs.take size
  InRange
    | .replace start stop _, bs => start ≤ stop ∧ stop ≤ bs.length
    | .truncate size, bs => size ≤ bs.length
  decidableInRange op bs := by cases op <;> infer_instance

/-- A blob that was just created, or one found in the read-only image. -/
inductive Start (s : Store) : Blob → List UInt8 → Prop where
  | created {s₀ : Store} {b : Blob} (sound : s₀.Sound) (run : create s₀ = (.ok b, s)) : Start s b []
  | attached {r : Ref} {bs : List UInt8} (sound : s.Sound)
      (image : (holds (load s.memory r) bs).holds s.memory s.baseline ∅) :
      Start s (load s.memory r) bs

/-- What is read from a blob, also when it is loaded again. -/
structure Shows (m : Memory) (b : Blob) (bs : List UInt8) : Prop where
  size : b.size = bs.length
  slice : ∀ start stop, start ≤ stop → stop ≤ bs.length →
    (b.slice m start stop).data.toList = (bs.drop start).take (stop - start)
  loads : load m b.node.ref = b

variable {s s' : Store} {b b' : Blob} {bs : List UInt8} {R : Assertion}

theorem Start.holds (start : Start s b bs) : s.Holds (Blob.holds b bs * 1) := by
  cases start with
  | created sound run => exact create_holds (Store.holds_one sound) run
  | attached sound image =>
      exact Store.Holds.of_eq ⟨sound, ∅, s.owns_empty, image⟩ (mul_one _).symm

theorem Op.run_holds {op : Op} (h : s.Holds (Blob.holds b bs * R)) (inRange : Replay.InRange op bs)
    (ok : Replay.run op (b, s) = (.ok (), (b', s'))) :
    s'.Holds (Blob.holds b' (Replay.onList op bs) * R) := by
  cases op with
  | replace start stop data => exact replace_holds h inRange.1 inRange.2 ok
  | truncate size => exact truncate_holds h inRange ok

theorem shows_of_holds (h : s.Holds (holds b bs * R)) : Shows s.memory b bs := by
  obtain ⟨_, reads⟩ := h.reads
  exact ⟨size_of_holds reads, fun _ _ => slice_of_holds reads, congrArg Blob.mk reads.2.1.load⟩

theorem run_shows {before after : List Op} (start : Start s b bs)
    (inRange : AllInRange (before ++ after) bs)
    (ok : runAll (before ++ after) (b, s) = (.ok (), (b', s'))) :
    ∃ b₁ s₁, runAll before (b, s) = (.ok (), (b₁, s₁)) ∧
      Shows s₁.memory b₁ (onLists before bs) := by
  obtain ⟨⟨b₁, s₁⟩, first, h⟩ := Replay.reached (Q := fun p bs => p.2.Holds (holds p.1 bs * 1))
    (fun h inRange ok => Op.run_holds h inRange ok) start.holds inRange ok
  exact ⟨b₁, s₁, first, shows_of_holds h⟩

end Blob

namespace BytesLeaf

inductive Op where
  | add (v : ByteArray)
  | insert (i : Nat) (v : ByteArray)
  | set (i : Nat) (v : ByteArray)
  | erase (i : Nat)
  | truncate (size : Nat)
  | clear

/-- The largest number of values that the header of the ends can count. -/
def maxSize : Nat := 0xFFFFFF

instance : Replay Op BytesLeaf ByteArray where
  run
    | .add v => BytesLeaf.add v
    | .insert i v => BytesLeaf.insert i v
    | .set i v => BytesLeaf.set i v
    | .erase i => BytesLeaf.erase i
    | .truncate size => BytesLeaf.truncate size
    | .clear => BytesLeaf.truncate 0
  onList
    | .add v, vs => vs ++ [v]
    | .insert i v, vs => vs.insertIdx i v
    | .set i v, vs => vs.set i v
    | .erase i, vs => vs.eraseIdx i
    | .truncate size, vs => vs.take size
    | .clear, _ => []
  InRange
    | .add _, vs => vs.length < maxSize
    | .insert i _, vs => i ≤ vs.length ∧ vs.length < maxSize
    | .set i _, vs => i < vs.length
    | .erase i, vs => i < vs.length
    | .truncate size, vs => size ≤ vs.length
    | .clear, _ => True
  decidableInRange op vs := by cases op <;> infer_instance

/-- A leaf that was just created, or one found in the read-only image. -/
inductive Start (s : Store) : BytesLeaf → List ByteArray → Prop where
  | created {s₀ : Store} {l : BytesLeaf} (sound : s₀.Sound) (run : create s₀ = (.ok l, s)) :
      Start s l []
  | attached {r : Ref} {vs : List ByteArray} (sound : s.Sound)
      (image : (padded (load s.memory r) vs []).holds s.memory s.baseline ∅) :
      Start s (load s.memory r) vs

/-- What is read from a leaf with the values `vs`, also when it is loaded again. -/
structure Shows (m : Memory) (l : BytesLeaf) (vs : List ByteArray) : Prop where
  size : l.size = vs.length
  get : ∀ i (inside : i < vs.length), l.get m i = vs[i]
  ascending : (l.ends.toList m).Pairwise (· ≤ ·)
  last : (l.ends.toList m).getLastD 0 = Int64.ofNat l.blob.size
  loads : load m l.top.ref = l

variable {s s' : Store} {l l' : BytesLeaf} {vs : List ByteArray} {R : Assertion} {m : Memory}
  {base : Nat} {own : Set Nat}

theorem Start.holds (start : Start s l vs) : s.Holds (padded l vs [] * 1) := by
  cases start with
  | created sound run => exact create_padded (Store.holds_one sound) run
  | attached sound image =>
      exact Store.Holds.of_eq ⟨sound, ∅, s.owns_empty, image⟩ (mul_one _).symm

/-- What was written of a leaf is found in the image. -/
theorem Start.of_image (settings : StoreSettings) (h : (padded l vs []).holds m base own)
    (formed : Node.WellFormed m l.top.ref) (fits : Node.Fits m (.load m l.top.ref))
    (small : ((Node.load m l.top.ref).image m).1.size ≤ Store.addressSpace) :
    ∃ s r, Store.ofImage settings ((Node.load m l.top.ref).image m).1 = .ok (s, r) ∧
      Start s (load s.memory r) vs := by
  obtain ⟨s, accepted, attached, copy⟩ := Node.image_copies settings formed fits small
  obtain ⟨l', place, h⟩ := padded_copy (attached.baseline ▸ small) h copy
  have same : load s.memory l'.top.ref = l' := load_of_parts h
  rw [place] at same
  exact ⟨s, _, accepted, .attached attached.sound (same ▸ h)⟩

theorem Op.run_padded {op : Op} (h : s.Holds (padded l vs [] * R)) (inRange : Replay.InRange op vs)
    (ok : Replay.run op (l, s) = (.ok (), (l', s'))) :
    s'.Holds (padded l' (Replay.onList op vs) [] * R) := by
  have fewer {n : Nat} (small : n < maxSize) : n + 1 < 2 ^ 24 := Nat.succ_lt_succ small
  cases op with
  | add v =>
      -- An addition is an insertion behind the last value.
      change BytesLeaf.add v (l, s) = (.ok (), (l', s')) at ok
      obtain ⟨_, reads⟩ := h.reads
      rw [BytesLeaf.add, Edit.self_bind, size_of_parts reads] at ok
      have h := insert_padded h (Nat.le_refl _) (fewer inRange) ok
      rwa [List.insertIdx_length_self] at h
  | insert i v => exact insert_padded h inRange.1 (fewer inRange.2) ok
  | set i v => exact set_padded h inRange ok
  | erase i => exact erase_padded h inRange ok
  | truncate size => exact truncate_padded h inRange ok
  | clear =>
      change BytesLeaf.truncate 0 (l, s) = (.ok (), (l', s')) at ok
      have h := truncate_padded h (Nat.zero_le _) ok
      rwa [List.take_zero] at h

theorem ofNat_le {a b : Nat} (ordered : a ≤ b) (small : b < 2 ^ 24) :
    Int64.ofNat a ≤ Int64.ofNat b := by
  rw [Int64.le_iff_toInt_le, Int64.toInt_ofNat_of_lt (by omega), Int64.toInt_ofNat_of_lt (by omega)]
  exact Int.ofNat_le.mpr ordered

theorem stops_ascending (small : (joined vs).length < 2 ^ 24) : (stops vs).Pairwise (· ≤ ·) := by
  rw [List.pairwise_iff_getElem]
  intro i j first second before
  rw [length_stops] at first second
  simp only [stops, Branch.getElem_ends, start_stops]
  have below := Branch.start_le_sum (sizes vs) (j + 1)
  rw [← length_joined] at below
  exact ofNat_le (Branch.start_mono _ (by omega)) (by omega)

theorem getLastD_stops (vs : List ByteArray) :
    (stops vs).getLastD 0 = Int64.ofNat (joined vs).length := by
  rw [List.getLastD_eq_getLast?, List.getLast?_eq_getElem?, length_stops]
  cases vs with
  | nil => rfl
  | cons v vs =>
      have inside : vs.length < (stops (v :: vs)).length := by simp
      rw [List.length_cons, Nat.add_sub_cancel, List.getElem?_eq_getElem inside, Option.getD_some]
      simp only [stops, Branch.getElem_ends, start_stops]
      rw [Branch.start_of_length_le _ (by simp), length_joined]

theorem shows_of_padded (h : s.Holds (padded l vs [] * R)) : Shows s.memory l vs := by
  obtain ⟨_, reads⟩ := h.reads
  have small := small_of_parts reads
  have get := fun i => get_of_parts (i := i) reads
  have size := size_of_parts reads
  have loads := load_of_parts reads
  rw [List.append_nil] at small
  obtain ⟨_, _, _, -, -, _, _, rfl, -, ends, blob⟩ := reads
  have list : l.ends.toList s.memory = stops vs := ends.2.2.2.2
  refine ⟨size, get, ?_, ?_, loads⟩
  · rw [list]
    exact stops_ascending small
  · rw [list, getLastD_stops, Blob.size, Blob.size_of_holds blob, List.append_nil]

theorem run_shows {before after : List Op} (start : Start s l vs)
    (inRange : AllInRange (before ++ after) vs)
    (ok : runAll (before ++ after) (l, s) = (.ok (), (l', s'))) :
    ∃ l₁ s₁, runAll before (l, s) = (.ok (), (l₁, s₁)) ∧
      Shows s₁.memory l₁ (onLists before vs) := by
  obtain ⟨⟨l₁, s₁⟩, first, h⟩ := Replay.reached (Q := fun p vs => p.2.Holds (padded p.1 vs [] * 1))
    (fun h inRange ok => Op.run_padded h inRange ok) start.holds inRange ok
  exact ⟨l₁, s₁, first, shows_of_padded h⟩

/-- After every step of a run that succeeds, a leaf shows the list that the same operations make,
and a blob shows the bytes that the same replacements make. -/
theorem run_shows_values {t t' : Store} {b b' : Blob} {bs : List UInt8} {before after : List Op}
    {earlier later : List Blob.Op} (leaf : Start s l vs) (inRange : AllInRange (before ++ after) vs)
    (ok : runAll (before ++ after) (l, s) = (.ok (), (l', s'))) (blob : Blob.Start t b bs)
    (within : AllInRange (earlier ++ later) bs)
    (replaced : runAll (earlier ++ later) (b, t) = (.ok (), (b', t'))) :
    (∃ l₁ s₁, runAll before (l, s) = (.ok (), (l₁, s₁)) ∧
      Shows s₁.memory l₁ (onLists before vs)) ∧
    ∃ b₁ t₁, runAll earlier (b, t) = (.ok (), (b₁, t₁)) ∧
      Blob.Shows t₁.memory b₁ (onLists earlier bs) :=
  ⟨run_shows leaf inRange ok, Blob.run_shows blob within replaced⟩

/-- Bytes that move up, and bytes that move down. -/
def replacements : List Blob.Op :=
  [.replace 0 0 ⟨#[1, 2, 3, 4]⟩, .replace 1 2 ⟨#[9, 9, 9]⟩, .replace 0 4 ⟨#[8]⟩]

theorem run_shows_values_added :
    ∃ l s b t l₁ s₁ b₁ t₁, create (.empty {}) = (.ok l, s) ∧ Blob.create (.empty {}) = (.ok b, t) ∧
      runAll [Op.add ⟨#[4, 5]⟩] (l, s) = (.ok (), (l₁, s₁)) ∧
      runAll replacements (b, t) = (.ok (), (b₁, t₁)) ∧
      Shows s₁.memory l₁ [⟨#[4, 5]⟩] ∧ Blob.Shows t₁.memory b₁ [8, 3, 4] := by
  have sound := Store.sound_empty {}
  have inRange : AllInRange ([Op.add ⟨#[4, 5]⟩] ++ [.clear]) [] := by decide
  have within : AllInRange (replacements ++ []) [] := by decide
  obtain ⟨l, s, l', s', created, ok⟩ := Replay.exists_run create
    [Op.add ⟨#[4, 5]⟩, .clear] (.empty {}) (by decide +kernel)
  obtain ⟨b, t, b', t', made, replaced⟩ := Replay.exists_run Blob.create
    replacements (.empty {}) (by decide +kernel)
  obtain ⟨⟨l₁, s₁, leafRun, leafShows⟩, b₁, t₁, blobRun, blobShows⟩ :=
    run_shows_values (.created sound created) inRange ok (.created sound made) within replaced
  exact ⟨l, s, b, t, l₁, s₁, b₁, t₁, created, made, leafRun, blobRun, leafShows, blobShows⟩

end BytesLeaf

end ColumnStore
