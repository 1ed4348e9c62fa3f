import ColumnStore.Proofs.Bits
import ColumnStore.Proofs.Lanes

set_option autoImplicit false

/-!
A search reports the matches of a linear scan, whichever way it compares the elements.
-/
namespace ColumnStore

variable {S : Type}

namespace Receiver

/-- Matches told one after the other, until the receiver stops. -/
def feed (r : Receiver S) : List (Nat × Int64) → S → S × Bool
  | [], s => (s, true)
  | (i, v) :: rest, s =>
      match r.onMatch s i v with
      | (s, true) => feed r rest s
      | (s, false) => (s, false)

/-- The receiver takes neither batches nor ranges. -/
structure Declines (r : Receiver S) : Prop where
  batch : ∀ s i mask, r.onBatch s i mask = none
  range : ∀ s start stop, r.onRange s start stop = none

/-- A batch or a range that the receiver takes says as much as its matches one by one. Neither is
offered without a match in it. -/
structure Faithful (r : Receiver S) : Prop where
  batch : ∀ s i mask s', mask ≠ 0 → r.onBatch s i mask = some s' → ∀ told : List (Nat × Int64),
    told.length = ((List.range 64).filter (Search.hasBit mask)).length → r.feed told s = (s', true)
  range : ∀ s start stop answer, start < stop → r.onRange s start stop = some answer →
    ∀ told : List (Nat × Int64), told.length = stop - start → r.feed told s = answer

theorem Declines.faithful {r : Receiver S} (declines : r.Declines) : r.Faithful where
  batch s i mask s' _ taken := by
    rw [declines.batch] at taken
    cases taken
  range s start stop answer _ taken := by
    rw [declines.range] at taken
    cases taken

end Receiver

namespace Search

theorem feed_cons (r : Receiver S) (i : Nat) (v : Int64) (rest : List (Nat × Int64)) (s : S) :
    r.feed ((i, v) :: rest) s = andThen (r.onMatch s i v) (r.feed rest) := by
  rw [Receiver.feed, andThen]
  rcases r.onMatch s i v with ⟨s, _ | _⟩ <;> rfl

theorem andThen_assoc (r : S × Bool) (f g : S → S × Bool) :
    andThen (andThen r f) g = andThen r fun s => andThen (f s) g := by
  rcases r with ⟨s, _ | _⟩ <;> rfl

theorem feed_append (r : Receiver S) (a b : List (Nat × Int64)) (s : S) :
    r.feed (a ++ b) s = andThen (r.feed a s) (r.feed b) := by
  induction a generalizing s with
  | nil => rfl
  | cons head rest ih =>
      obtain ⟨i, v⟩ := head
      rw [List.cons_append, feed_cons, feed_cons, andThen_assoc]
      congr 1
      funext s
      exact ih s

/-- What is reported for element `i`. -/
def pair (q : Search S) (i : Nat) : Nat × Int64 := (i + q.base, q.get i)

def matching (q : Search S) (i : Nat) : Bool := q.test.int (q.get i) q.needle

/-- The matches among `count` elements from `start` on. -/
def hits (q : Search S) (start count : Nat) : List (Nat × Int64) :=
  ((List.range' start count).filter q.matching).map q.pair

theorem hits_append (q : Search S) (start a b : Nat) :
    q.hits start (a + b) = q.hits start a ++ q.hits (start + a) b := by
  rw [hits, hits, hits, ← List.map_append, ← List.filter_append, ← List.range'_append_1]

theorem hits_eq_range (q : Search S) (i n : Nat) :
    q.hits i n = ((List.range n).filter fun k => q.matching (i + k)).map fun k => q.pair (i + k) := by
  rw [hits, List.range'_eq_map_range, List.filter_map, List.map_map]
  rfl

/-! ### One by one -/

theorem scan_eq_feed (q : Search S) (count i : Nat) (s : S) :
    q.scan count i s = q.receiver.feed (q.hits i count) s := by
  induction count generalizing i s with
  | zero => rfl
  | succ count ih =>
      have first : q.hits i (count + 1) = q.hits i 1 ++ q.hits (i + 1) count := by
        rw [← hits_append, Nat.add_comm]
      rw [scan, first, feed_append]
      have single : q.single i s = q.receiver.feed (q.hits i 1) s := by
        by_cases test : q.matching i
        · have test' : q.test.int (q.get i) q.needle = true := test
          simp only [Search.single, test', if_true, hits, List.range'_one, List.filter_cons, test,
            List.filter_nil, List.map_cons, List.map_nil, pair, feed_cons, report]
          rcases q.receiver.onMatch s (i + q.base) (q.get i) with ⟨s, _ | _⟩ <;> rfl
        · have test' : ¬ q.test.int (q.get i) q.needle = true := test
          simp [Search.single, test', hits, test, Receiver.feed]
      rw [single]
      congr 1
      funext s
      exact ih (i + 1) s

theorem reportRange_eq_feed (q : Search S) (count i : Nat) (s : S)
    (all : ∀ j, q.matching j = true) : q.reportRange count i s = q.receiver.feed (q.hits i count) s := by
  rw [← scan_eq_feed]
  induction count generalizing i s with
  | zero => rfl
  | succ count ih =>
      have test : q.test.int (q.get i) q.needle = true := all i
      rw [reportRange, scan, single, if_pos test]
      congr 1
      funext s
      exact ih (i + 1) s

/-! ### In groups -/

theorem groups_eq_feed (q : Search S) (group : Nat → S → S × Bool) (lanes count i : Nat) (s : S)
    (exact : ∀ j s, j % lanes = 0 → group j s = q.receiver.feed (q.hits j lanes) s)
    (whole : i % lanes = 0) :
    groups group lanes count i s = q.receiver.feed (q.hits i (count * lanes)) s := by
  induction count generalizing i s with
  | zero => simp [groups, hits, Receiver.feed]
  | succ count ih =>
      have split : (count + 1) * lanes = lanes + count * lanes := by
        rw [Nat.succ_mul, Nat.add_comm]
      rw [groups, split, hits_append, feed_append, exact i s whole]
      congr 1
      funext s
      exact ih (i + lanes) s (by rw [Nat.add_mod_right, whole])

theorem aligned_eq_feed (q : Search S) (group : Nat → S → S × Bool) (lanes start stop : Nat) (s : S)
    (exact : ∀ j s, j % lanes = 0 → group j s = q.receiver.feed (q.hits j lanes) s)
    (some : 0 < lanes) (ordered : start ≤ stop) :
    q.aligned group lanes start stop s = q.receiver.feed (q.hits start (stop - start)) s := by
  obtain ⟨first, hfirst⟩ : ∃ f, min ((start + lanes - 1) / lanes * lanes) stop = f := ⟨_, rfl⟩
  obtain ⟨count, hcount⟩ : ∃ c, (stop - first) / lanes = c := ⟨_, rfl⟩
  have above : start ≤ first := by
    have parts := Nat.div_add_mod (start + lanes - 1) lanes
    have small := Nat.mod_lt (start + lanes - 1) some
    rw [Nat.mul_comm] at parts
    omega
  have below : first + count * lanes ≤ stop := by
    have := Nat.div_mul_le_self (stop - first) lanes
    rw [hcount] at this
    omega
  -- The head up to the first whole group, the groups, and the tail.
  have split : stop - start =
      (first - start) + (count * lanes + (stop - (first + count * lanes))) := by omega
  have next : start + (first - start) = first := by omega
  have middle (s : S) :
      groups group lanes count first s = q.receiver.feed (q.hits first (count * lanes)) s := by
    by_cases none : count = 0
    · simp [none, groups, hits, Receiver.feed]
    · apply groups_eq_feed q group lanes count first s exact
      have : first ≠ stop := by
        intro last
        apply none
        rw [← hcount, last, Nat.sub_self, Nat.zero_div]
      have : first = (start + lanes - 1) / lanes * lanes := by omega
      rw [this, Nat.mul_mod_left]
  rw [aligned, hfirst, hcount, split, hits_append, hits_append, feed_append, next, scan_eq_feed]
  congr 1
  funext s
  rw [feed_append, middle]
  congr 1
  funext s
  exact scan_eq_feed q _ _ s

/-! ### From bits -/

theorem hasBit_eq_testBit (w : UInt64) (b : Nat) (small : b < 64) :
    hasBit w b = w.toNat.testBit b := by
  have amount : (UInt64.ofNat b).toNat % 64 = b := by
    simp
    omega
  have low : (w >>> UInt64.ofNat b &&& 1).toNat = (w.toNat.testBit b).toNat := by
    rw [UInt64.toNat_and, UInt64.toNat_shiftRight, amount, Nat.testBit_eq_decide_div_mod_eq,
      Nat.shiftRight_eq_div_pow]
    show w.toNat / 2 ^ b &&& 1 = _
    rw [Nat.and_one_is_mod]
    rcases Nat.mod_two_eq_zero_or_one (w.toNat / 2 ^ b) with h | h <;> simp [h]
  rw [hasBit]
  cases set : w.toNat.testBit b with
  | false =>
      have : w >>> UInt64.ofNat b &&& 1 = 0 := by
        rw [← UInt64.toNat_inj, low, set]
        rfl
      rw [this]
      rfl
  | true =>
      have : w >>> UInt64.ofNat b &&& 1 = 1 := by
        rw [← UInt64.toNat_inj, low, set]
        rfl
      rw [this]
      rfl

theorem reportBits_eq_feed (q : Search S) (bits : UInt64) (perLane i count b : Nat) (s : S) :
    q.reportBits bits perLane i count b s =
      q.receiver.feed (((List.range' b count).filter (hasBit bits)).map
        fun b => q.pair (i + b / perLane)) s := by
  induction count generalizing b s with
  | zero => rfl
  | succ count ih =>
      rw [reportBits, List.range'_succ, List.filter_cons]
      by_cases set : hasBit bits b
      · rw [if_pos set, if_pos set, List.map_cons, pair, feed_cons]
        show andThen (q.report (i + b / perLane) s) _ = andThen (q.report (i + b / perLane) s) _
        congr 1
        funext s
        exact ih (b + 1) s
      · rw [if_neg set, if_neg set]
        exact ih (b + 1) s

theorem reportHits_eq_feed (q : Search S) (faithful : q.receiver.Faithful) (bits : UInt64)
    (perLane i : Nat) (s : S) :
    q.reportHits bits perLane i s =
      q.receiver.feed (((List.range 64).filter (hasBit bits)).map
        fun b => q.pair (i + b / perLane)) s := by
  rw [reportHits]
  by_cases none : bits = 0
  · have clear : (List.range 64).filter (hasBit 0) = [] := by decide
    rw [if_pos none, none, clear]
    rfl
  · rw [if_neg none]
    split
    next s' taken =>
      refine (faithful.batch s _ bits s' none taken _ ?_).symm
      rw [List.length_map]
    next =>
      rw [List.range_eq_range']
      exact reportBits_eq_feed q bits perLane i 64 0 s

/-! ### Blocks of 16 bytes -/

theorem testBit_blockHits (q : Search S) (i lanes b : Nat) (small : lanes ≤ 64) :
    (q.blockHits i lanes).toNat.testBit b = (decide (b < lanes) &&
      q.test.int (q.get (i + b)) (Memory.signExtend q.width q.needle.toUInt64)) := by
  induction lanes with
  | zero => simp [blockHits]
  | succ lanes ih =>
      have amount : (UInt64.ofNat lanes).toNat % 64 = lanes := by
        simp
        omega
      have one : (1 : UInt64).toNat = 1 := rfl
      have bit : (1 <<< UInt64.ofNat lanes).toNat = 2 ^ lanes := by
        have : 2 ^ lanes < 2 ^ 64 := Nat.pow_lt_pow_right (by omega) (by omega)
        rw [UInt64.toNat_shiftLeft, amount, one, Nat.one_shiftLeft, Nat.mod_eq_of_lt this]
      rw [blockHits]
      by_cases last : b = lanes
      · subst last
        have inside : b < b + 1 := by omega
        have beyond := ih (by omega)
        rw [decide_eq_false (Nat.lt_irrefl b), Bool.false_and] at beyond
        cases value : q.test.int (q.get (i + b)) (Memory.signExtend q.width q.needle.toUInt64)
        · simp [beyond]
        · simp [UInt64.toNat_or, bit, beyond]
      · have order : b < lanes + 1 ↔ b < lanes := by omega
        have other : (2 ^ lanes).testBit b = false := by
          rw [Nat.testBit_two_pow]
          simp
          omega
        cases value : q.test.int (q.get (i + lanes)) (Memory.signExtend q.width q.needle.toUInt64)
        · simp [ih (by omega), order]
        · simp [UInt64.toNat_or, bit, ih (by omega), order, other]

theorem block_eq_feed (q : Search S) (faithful : q.receiver.Faithful) (wide : 8 ≤ q.width)
    (kept : Memory.signExtend q.width q.needle.toUInt64 = q.needle) (i : Nat) (s : S) :
    q.block i s = q.receiver.feed (q.hits i q.blockLanes) s := by
  have few : q.blockLanes ≤ 64 := by
    rw [blockLanes]
    exact Nat.le_trans (Nat.div_le_div_left wide (by omega)) (by omega)
  have bits (b : Nat) (inside : b < 64) : hasBit (q.blockHits i q.blockLanes) b =
      (decide (b < q.blockLanes) && q.matching (i + b)) := by
    rw [hasBit_eq_testBit _ _ inside, testBit_blockHits _ _ _ _ few, kept]
    rfl
  -- Bits beyond the lanes of a block are clear.
  have chosen : (List.range 64).filter (hasBit (q.blockHits i q.blockLanes)) =
      (List.range q.blockLanes).filter fun k => q.matching (i + k) := by
    obtain ⟨rest, whole⟩ : ∃ rest, 64 = q.blockLanes + rest := ⟨64 - q.blockLanes, by omega⟩
    rw [whole, List.range_add, List.filter_append]
    have first : (List.range q.blockLanes).filter (hasBit (q.blockHits i q.blockLanes)) =
        (List.range q.blockLanes).filter fun k => q.matching (i + k) := by
      apply List.filter_congr
      intro b inside
      rw [List.mem_range] at inside
      simp [bits b (by omega), inside]
    have last : ((List.range rest).map (q.blockLanes + ·)).filter
        (hasBit (q.blockHits i q.blockLanes)) = [] := by
      rw [List.filter_eq_nil_iff]
      intro b inside
      rw [List.mem_map] at inside
      obtain ⟨k, inside, rfl⟩ := inside
      rw [List.mem_range] at inside
      simp only [bits (q.blockLanes + k) (by omega), Bool.and_eq_true, decide_eq_true_eq]
      omega
    rw [first, last, List.append_nil]
  rw [block, reportHits_eq_feed q faithful, chosen, hits_eq_range]
  simp

/-! ### Words of 64 bits -/

theorem filter_topBits {w : Nat} (h : IsLaneWidth w) {bits : UInt64} {hit : Nat → Bool}
    (top : TopBits w bits hit) (n : Nat) (bound : n ≤ 64 / w) :
    ((List.range (w * n)).filter (hasBit bits)).map (· / w) = (List.range n).filter hit := by
  have wide : 0 < w := h.2.1
  induction n with
  | zero => rfl
  | succ n ih =>
      have inside : w * n + w ≤ 64 := by
        rw [← h.lanes, ← Nat.mul_succ]
        exact Nat.mul_le_mul_left w bound
      have bit (j : Nat) (small : j < w) :
          hasBit bits (w * n + j) = (hit n && decide (j = w - 1)) := by
        have := testBit_lane w n bits.toNat j
        rw [top n (by omega)] at this
        rw [hasBit_eq_testBit _ _ (by omega)]
        simp only [small, decide_true, Bool.true_and] at this
        rw [← this]
        cases hit n
        · simp
        · simp [Nat.testBit_two_pow, eq_comm]
      -- Of the bits of lane `n` only the top one can be set.
      have last : ((List.range w).map (w * n + ·)).filter (hasBit bits) =
          if hit n then [w * n + (w - 1)] else [] := by
        have whole : List.range w = List.range (w - 1) ++ [w - 1] := by
          rw [← List.range_succ]
          congr 1
          omega
        have clear : ((List.range (w - 1)).map (w * n + ·)).filter (hasBit bits) = [] := by
          rw [List.filter_eq_nil_iff]
          intro b member
          rw [List.mem_map] at member
          obtain ⟨j, member, rfl⟩ := member
          rw [List.mem_range] at member
          rw [bit j (by omega)]
          simp
          omega
        rw [whole, List.map_append, List.filter_append, clear, List.nil_append, List.map_cons,
          List.map_nil, List.filter_cons, bit (w - 1) (by omega)]
        cases hit n <;> simp
      have quotient : (w * n + (w - 1)) / w = n := by
        rw [Nat.mul_add_div wide, Nat.div_eq_of_lt (by omega), Nat.add_zero]
      rw [Nat.mul_succ, List.range_add, List.filter_append, List.map_append, ih (by omega), last,
        List.range_succ, List.filter_append, List.filter_cons, List.filter_nil]
      cases hit n <;> simp [quotient]

theorem reportHits_topBits (q : Search S) (faithful : q.receiver.Faithful)
    (h : IsLaneWidth q.width) {bits : UInt64} (i : Nat) (s : S)
    (top : TopBits q.width bits fun k => q.matching (i + k)) :
    q.reportHits bits q.width i s = q.receiver.feed (q.hits i q.wordLanes) s := by
  have chosen := filter_topBits h top (64 / q.width) (Nat.le_refl _)
  rw [h.lanes] at chosen
  rw [reportHits_eq_feed q faithful, hits_eq_range, wordLanes, ← chosen, List.map_map]
  rfl

theorem lane_wordAt (q : Search S) (h : IsLaneWidth q.width) (i k : Nat)
    (whole : i % q.wordLanes = 0) (inside : k < q.wordLanes) :
    lane q.width k (q.wordAt i).toNat =
      q.memory.field (8 * q.data + (i + k) * q.width) q.width := by
  have lanes : q.width * q.wordLanes = 64 := h.lanes
  have parts := Nat.div_add_mod i q.wordLanes
  -- The word starts at the first bit of element `i`, since `i` starts a word.
  have bytes : i * q.width = 64 * (i / q.wordLanes) := by
    rw [whole, Nat.add_zero] at parts
    rw [Nat.mul_comm i, ← lanes, Nat.mul_assoc, parts]
  have place : 8 * (q.data + i * q.width / 8) = 8 * q.data + i * q.width := by omega
  have fits : q.width * k + q.width ≤ 64 := by
    rw [← lanes, ← Nat.mul_succ]
    exact Nat.mul_le_mul_left _ inside
  rw [lane, wordAt, Memory.toNat_word, place, Memory.field_within _ _ _ _ _ fits, Nat.add_mul,
    Nat.mul_comm k, Nat.add_assoc]

/-- The needle is one of the values that elements of this width have. -/
def NeedleFits (q : Search S) : Prop :=
  Width.lower q.width ≤ q.needle ∧ q.needle ≤ Width.upper q.width

/-- A field stands for the needle if its bits are those of the needle. -/
theorem decode_eq_iff {w f : Nat} (h : IsLaneWidth w) (needle : Int64)
    (fits : Width.lower w ≤ needle ∧ needle ≤ Width.upper w) (small : f < 2 ^ w) :
    Memory.decode w f = needle.toInt ↔ f = needle.toUInt64.toNat % 2 ^ w := by
  have bits := toNat_toUInt64 needle
  obtain ⟨low, high⟩ := fits
  rw [Int64.le_iff_toInt_le, Width.toInt_lower h.1] at low
  rw [Int64.le_iff_toInt_le, Width.toInt_upper h.1] at high
  rcases h.cases with rfl | rfl | rfl | rfl | rfl | rfl <;>
    simp [Memory.decode, Int.bmod_def] at low high small ⊢ <;> omega

theorem matching_equal (q : Search S) (h : IsLaneWidth q.width) (fits : q.NeedleFits) (i k : Nat)
    (whole : i % q.wordLanes = 0) (inside : k < q.wordLanes) :
    (q.get (i + k) == q.needle) =
      (lane q.width k (q.wordAt i).toNat == q.needle.toUInt64.toNat % 2 ^ q.width) := by
  have value := Memory.toInt_element q.memory q.data q.width (i + k) h.1
  have small := Memory.field_lt q.memory (8 * q.data + (i + k) * q.width) q.width
  rw [lane_wordAt q h i k whole inside]
  apply Bool.eq_iff_iff.mpr
  rw [beq_iff_eq, beq_iff_eq, ← decode_eq_iff h q.needle fits small, ← value, Int64.toInt_inj]
  rfl

theorem equalityWord_eq_feed (q : Search S) (faithful : q.receiver.Faithful)
    (h : IsLaneWidth q.width) (fits : q.NeedleFits) (equal : Bool)
    (test : q.test = if equal then .equal else .notEqual) (i : Nat) (s : S)
    (whole : i % q.wordLanes = 0) :
    q.equalityWord equal i s = q.receiver.feed (q.hits i q.wordLanes) s := by
  apply reportHits_topBits q faithful h
  apply (topBits_equality h equal q.needle (q.wordAt i)).congr
  intro k inside
  rw [← matching_equal q h fits i k whole inside, matching, test]
  cases equal <;> simp [Comparison.int, Comparison.holds]

/-- What the words of a relation rely on: the threshold is below the top bit of a lane. -/
theorem threshold_of_fits {w : Nat} (h : IsLaneWidth w) (greater : Bool) (needle : Int64)
    (fits : relationFits w greater needle = true) :
    0 ≤ needle.toInt ∧
      ((if greater then needle + 1 else needle).toUInt64.toNat : Int) =
        needle.toInt + (if greater then 1 else 0) ∧
      (if greater then needle + 1 else needle).toUInt64.toNat < 2 ^ (w - 1) := by
  simp only [relationFits, Bool.and_eq_true, decide_eq_true_eq] at fits
  obtain ⟨⟨-, low⟩, high⟩ := fits
  have one : (1 : Int64).toInt = 1 := rfl
  have zero : (0 : Int64).toInt = 0 := rfl
  -- Both the needle and its successor stay below the top bit, which also rules out a wrap.
  have bound : needle.toInt + (if greater then 1 else 0) ≤ 2 ^ (w - 1) - 1 := by
    rw [Int64.le_iff_toInt_le] at high
    refine Int.le_trans (Int.add_le_add_right high _) ?_
    rcases h.cases with rfl | rfl | rfl | rfl | rfl | rfl <;> cases greater <;> decide
  have size : (2 : Int) ^ (w - 1) ≤ 2 ^ 31 := by
    rcases h.cases with rfl | rfl | rfl | rfl | rfl | rfl <;> decide
  rw [Int64.le_iff_toInt_le, zero] at low
  have value : ((if greater then needle + 1 else needle).toUInt64.toNat : Int) =
      needle.toInt + (if greater then 1 else 0) := by
    cases greater with
    | false =>
        simp at bound
        simp only [Bool.false_eq_true, if_false, toNat_toUInt64]
        omega
    | true =>
        simp at bound
        simp only [if_true, toNat_toUInt64, Int64.toInt_add, one, Int.bmod_def]
        omega
  refine ⟨low, value, ?_⟩
  have : ((2 ^ (w - 1) : Nat) : Int) = 2 ^ (w - 1) := by simp
  omega

theorem decode_of_low {w f : Nat} (h : IsLaneWidth w) (small : f < 2 ^ (w - 1)) :
    Memory.decode w f = f := by
  rcases h.cases with rfl | rfl | rfl | rfl | rfl | rfl <;>
    simp [Memory.decode, Int.bmod_def] at small ⊢ <;> omega

theorem relationWord_eq_feed (q : Search S) (faithful : q.receiver.Faithful)
    (h : IsLaneWidth q.width) (greater : Bool)
    (fits : relationFits q.width greater q.needle = true)
    (test : q.test = if greater then .greater else .less) (i : Nat) (s : S)
    (whole : i % q.wordLanes = 0) :
    q.relationWord greater i s = q.receiver.feed (q.hits i q.wordLanes) s := by
  rw [relationWord]
  by_cases clear : q.wordAt i &&& highBits q.width = 0
  · obtain ⟨low, value, small⟩ := threshold_of_fits h greater q.needle fits
    rw [if_pos clear]
    apply reportHits_topBits q faithful h
    apply (topBits_relation h greater q.needle (q.wordAt i) clear small).congr
    intro k inside
    -- With a clear top bit no element is negative: lanes and values have the same order.
    have element := Memory.toInt_element q.memory q.data q.width (i + k) h.1
    have bound := lane_of_clear h (q.wordAt i) clear k
    rw [lane_wordAt q h i k whole inside] at bound ⊢
    rw [decode_of_low h bound] at element
    have element : (q.get (i + k)).toInt = _ := element
    generalize (if greater then q.needle + 1 else q.needle).toUInt64.toNat = threshold at value
    rw [matching, test]
    apply Bool.eq_iff_iff.mpr
    cases greater with
    | false =>
        simp only [Bool.false_eq_true, if_false, Int.add_zero] at value
        simp [Comparison.int, Comparison.holds, Int64.lt_iff_toInt_lt, element]
        omega
    | true =>
        simp only [if_true] at value
        simp [Comparison.int, Comparison.holds, Int64.lt_iff_toInt_lt, element]
        omega
  · rw [if_neg clear]
    exact scan_eq_feed q _ i s

/-! ### By the bounds of the width -/

theorem get_within (q : Search S) (legal : q.width ∈ Width.legal) (i : Nat) :
    (Width.lower q.width).toInt ≤ (q.get i).toInt ∧
      (q.get i).toInt ≤ (Width.upper q.width).toInt :=
  (Width.fits_iff _ _).mp (Memory.fits_element q.memory q.data q.width i legal)

theorem none_of_mayHold (test : Comparison) (needle lower upper v : Int64)
    (may : test.mayHold needle lower upper = false)
    (within : lower.toInt ≤ v.toInt ∧ v.toInt ≤ upper.toInt) : test.int v needle = false := by
  cases test <;>
    simp [Comparison.mayHold, Comparison.int, Comparison.holds, Int64.le_iff_toInt_le,
      Int64.lt_iff_toInt_lt, ← Int64.toInt_inj] at may ⊢ <;> omega

theorem all_of_mustHold (test : Comparison) (needle lower upper v : Int64)
    (must : test.mustHold needle lower upper = true)
    (within : lower.toInt ≤ v.toInt ∧ v.toInt ≤ upper.toInt) : test.int v needle = true := by
  cases test <;>
    simp [Comparison.mustHold, Comparison.int, Comparison.holds, Int64.le_iff_toInt_le,
      Int64.lt_iff_toInt_lt, ← Int64.toInt_inj] at must ⊢ <;> omega

/-- Where the bounds decide nothing, a comparison by blocks or words has a needle that fits. -/
theorem needleFits_of_open (q : Search S) (form : hasBlockForm q.test = true)
    (may : q.test.mayHold q.needle (Width.lower q.width) (Width.upper q.width) = true)
    (must : q.test.mustHold q.needle (Width.lower q.width) (Width.upper q.width) = false) :
    q.NeedleFits := by
  rw [NeedleFits]
  cases test : q.test <;> rw [test] at form may must <;> cases form <;>
    simp [Comparison.mayHold, Comparison.mustHold, Int64.le_iff_toInt_le,
      Int64.lt_iff_toInt_lt] at may must ⊢ <;> omega

theorem signExtend_needle (q : Search S) (legal : q.width ∈ Width.legal) (wide : 8 ≤ q.width)
    (fits : q.NeedleFits) : Memory.signExtend q.width q.needle.toUInt64 = q.needle := by
  obtain ⟨low, high⟩ := fits
  rw [Int64.le_iff_toInt_le, Width.toInt_lower legal] at low
  rw [Int64.le_iff_toInt_le, Width.toInt_upper legal] at high
  have bits := toNat_toUInt64 q.needle
  have range := Int64.toInt_lt q.needle
  have range' := Int64.le_toInt q.needle
  rw [Width.mem_legal] at legal
  rw [← Int64.toInt_inj, Memory.toInt_signExtend _ _ (by omega) (by omega)]
  generalize q.width = w at legal wide low high
  rcases legal with rfl | rfl | rfl | rfl | rfl | rfl | rfl | rfl <;>
    simp [Int.bmod_def] at wide low high ⊢ <;> omega

theorem byWords_eq_feed (q : Search S) (faithful : q.receiver.Faithful)
    (legal : q.width ∈ Width.legal) (positive : 0 < q.width)
    (fits : hasBlockForm q.test = true → q.NeedleFits) (start stop : Nat) (ordered : start ≤ stop)
    (s : S) : q.byWords start stop s = q.receiver.feed (q.hits start (stop - start)) s := by
  have lanes (h : IsLaneWidth q.width) : 0 < q.wordLanes :=
    Nat.div_pos (Nat.le_of_lt h.2.2) h.2.1
  have equality (equal : Bool) (test : q.test = if equal then .equal else .notEqual)
      (narrow : q.width < 64) : q.aligned (q.equalityWord equal) q.wordLanes start stop s =
        q.receiver.feed (q.hits start (stop - start)) s := by
    have h : IsLaneWidth q.width := ⟨legal, positive, narrow⟩
    have fits : q.NeedleFits := by
      apply fits
      cases equal <;> rw [test] <;> rfl
    exact aligned_eq_feed q _ _ _ _ s
      (fun j s whole => equalityWord_eq_feed q faithful h fits equal test j s whole) (lanes h)
      ordered
  have relation (greater : Bool) (test : q.test = if greater then .greater else .less)
      (narrow : q.width < 64 ∧ relationFits q.width greater q.needle = true) :
      q.aligned (q.relationWord greater) q.wordLanes start stop s =
        q.receiver.feed (q.hits start (stop - start)) s := by
    have h : IsLaneWidth q.width := ⟨legal, positive, narrow.1⟩
    exact aligned_eq_feed q _ _ _ _ s
      (fun j s whole => relationWord_eq_feed q faithful h greater narrow.2 test j s whole) (lanes h)
      ordered
  rw [byWords]
  cases test : q.test with
  | equal =>
      by_cases narrow : q.width < 64
      · simpa [narrow] using equality true test narrow
      · simpa [narrow] using scan_eq_feed q _ start s
  | notEqual =>
      by_cases narrow : q.width < 64
      · simpa [narrow] using equality false test narrow
      · simpa [narrow] using scan_eq_feed q _ start s
  | greater =>
      by_cases narrow : q.width < 64 ∧ relationFits q.width true q.needle = true
      · simpa [narrow] using relation true test narrow
      · simpa [narrow] using scan_eq_feed q _ start s
  | less =>
      by_cases narrow : q.width < 64 ∧ relationFits q.width false q.needle = true
      · simpa [narrow] using relation false test narrow
      · simpa [narrow] using scan_eq_feed q _ start s
  | greaterEqual => exact scan_eq_feed q _ start s
  | lessEqual => exact scan_eq_feed q _ start s
  | always => exact scan_eq_feed q _ start s

theorem byWidth_eq_feed (q : Search S) (faithful : q.receiver.Faithful)
    (legal : q.width ∈ Width.legal) (blocks : Nat → Bool)
    (fits : hasBlockForm q.test = true → q.NeedleFits) (start stop : Nat) (ordered : start ≤ stop)
    (s : S) : q.byWidth blocks start stop s = q.receiver.feed (q.hits start (stop - start)) s := by
  rw [byWidth]
  by_cases none : q.width = 0
  · rw [if_pos none]
    exact scan_eq_feed q _ start s
  rw [if_neg none]
  have words := byWords_eq_feed q faithful legal (by omega) fits start stop ordered s
  by_cases chosen : 8 ≤ q.width ∧ blocks q.width = true ∧ hasBlockForm q.test = true
  · obtain ⟨wide, supported, form⟩ := chosen
    have small := Width.le_of_legal legal
    have lanes : 0 < q.blockLanes := Nat.div_pos (by omega) (by omega)
    have kept := signExtend_needle q legal wide (fits form)
    rw [if_pos ⟨wide, supported, form⟩]
    -- A range without a whole block goes to the words.
    by_cases some : 0 < (stop - min ((start + q.blockLanes - 1) / q.blockLanes * q.blockLanes) stop) /
        q.blockLanes
    · rw [if_pos some]
      exact aligned_eq_feed q q.block _ _ _ s
        (fun j s _ => block_eq_feed q faithful wide kept j s) lanes ordered
    · rw [if_neg some]
      exact words
  · rw [if_neg chosen]
    exact words

theorem byBounds_eq_feed (q : Search S) (faithful : q.receiver.Faithful)
    (legal : q.width ∈ Width.legal) (blocks : Nat → Bool) (start stop : Nat)
    (ordered : start < stop) (s : S) :
    q.byBounds blocks start stop s = q.receiver.feed (q.hits start (stop - start)) s := by
  rw [byBounds]
  cases may : q.test.mayHold q.needle (Width.lower q.width) (Width.upper q.width) with
  | false =>
      have nothing : q.hits start (stop - start) = [] := by
        rw [hits, List.map_eq_nil_iff, List.filter_eq_nil_iff]
        intro i _
        simp [matching, none_of_mayHold _ _ _ _ _ may (get_within q legal i)]
      rw [nothing]
      rfl
  | true =>
      cases must : q.test.mustHold q.needle (Width.lower q.width) (Width.upper q.width) with
      | false =>
          simpa using byWidth_eq_feed q faithful legal blocks
            (fun form => needleFits_of_open q form may must) start stop (Nat.le_of_lt ordered) s
      | true =>
          have all (i : Nat) : q.matching i = true :=
            all_of_mustHold _ _ _ _ _ must (get_within q legal i)
          simp only [Bool.not_true, Bool.false_eq_true, if_false, if_true]
          split
          next answer taken =>
            refine (faithful.range s start stop answer ordered taken _ ?_).symm
            rw [hits, List.length_map, List.filter_eq_self.mpr fun i _ => all i, List.length_range']
          next => exact reportRange_eq_feed q (stop - start) start s all

theorem run_tells (q : Search S) (faithful : q.receiver.Faithful) (legal : q.width ∈ Width.legal)
    (blocks : Nat → Bool) (start stop : Nat) (s : S) :
    q.run blocks start stop s = q.receiver.feed (q.hits start (stop - start)) s := by
  rw [run]
  -- A few single tests come first, unless the search starts at the front.
  generalize chosen : (if start = 0 then 0 else min resumeTests (stop - start)) = tests
  have few : tests ≤ stop - start := by
    rw [← chosen]
    split <;> omega
  have split : stop - start = tests + (stop - (start + tests)) := by omega
  rw [split, hits_append, feed_append, scan_eq_feed]
  congr 1
  funext s
  by_cases done : stop ≤ start + tests
  · have rest : stop - (start + tests) = 0 := by omega
    rw [if_pos done, rest]
    rfl
  · rw [if_neg done]
    exact byBounds_eq_feed q faithful legal blocks _ stop (by omega) s

end Search

namespace Node

/-- The elements of a range that satisfy the test, with their indices counted from `base`. -/
def matching (m : Memory) (n : Node) (test : Comparison) (needle : Int64) (start stop base : Nat) :
    List (Nat × Int64) :=
  ((List.range' start (stop - start)).filter fun i => test.int (n.get m i) needle).map
    fun i => (base + i, n.get m i)

theorem hits_search (m : Memory) (n : Node) (r : Receiver S) (test : Comparison) (needle : Int64)
    (start stop base : Nat) : (n.search m r test needle base).hits start (stop - start) =
      n.matching m test needle start stop base := by
  rw [Search.hits, matching]
  congr 1
  funext i
  rw [Search.pair, Nat.add_comm]
  rfl

end Node

end ColumnStore
