import ColumnStore.Comparison
import ColumnStore.Node.Basic

set_option autoImplicit false

/-!
Search over the packed elements of a node. After a few single tests the bounds of the width may
decide everything; what is left is compared in blocks of 16 bytes, in words, or one by one, and
every way reports the same matches in ascending order until the receiver stops it.
-/
namespace ColumnStore

/-- Who is told about matches. A state is returned with each answer. -/
structure Receiver (S : Type) where
  /-- A match of a value at an index; `false` stops the search. -/
  onMatch : S → Nat → Int64 → S × Bool
  /-- One bit for each match from an index on; `none` asks for the matches one by one. -/
  onBatch : S → Nat → UInt64 → Option S := fun _ _ _ => none
  /-- All elements of a range match; `none` asks for them one by one. -/
  onRange : S → Nat → Nat → Option (S × Bool) := fun _ _ _ => none

namespace Receiver

/-- The first match. -/
def first : Receiver (Option Nat) where
  onMatch _ i _ := (some i, false)

/-- Every match, the last one first. -/
def collect : Receiver (List Nat) where
  onMatch found i _ := (i :: found, true)

/-- Matches with their values, as many as the limit allows. -/
def upTo (limit : Option Nat) : Receiver (Array (Nat × Int64)) where
  onMatch found i v := (found.push (i, v), limit.all (found.size + 1 < ·))

def bitCount : Nat → UInt64 → Nat
  | 0, _ => 0
  | n + 1, w => bitCount n (w >>> 1) + if w &&& 1 = 0 then 0 else 1

def popCount (w : UInt64) : Nat := bitCount 64 w

def count : Receiver Nat where
  onMatch k _ _ := (k + 1, true)
  onBatch k _ mask := some (k + popCount mask)
  onRange k start stop := some (k + (stop - start), true)

end Receiver

/-- A search for `test` against `needle`, reported with `base` added to every index. -/
structure Search (S : Type) where
  memory : Memory
  data : Nat
  width : Nat
  test : Comparison
  needle : Int64
  base : Nat
  receiver : Receiver S

namespace Search

variable {S : Type}

def get (q : Search S) (i : Nat) : Int64 := q.memory.element q.data q.width i

/-- Goes on with `next` unless the search was stopped. -/
@[inline] def andThen (r : S × Bool) (next : S → S × Bool) : S × Bool := if r.2 then next r.1 else r

def report (q : Search S) (i : Nat) (s : S) : S × Bool := q.receiver.onMatch s (i + q.base) (q.get i)

def single (q : Search S) (i : Nat) (s : S) : S × Bool :=
  if q.test.int (q.get i) q.needle then q.report i s else (s, true)

/-- Elements one by one, `count` of them from `i` on. -/
def scan (q : Search S) : Nat → Nat → S → S × Bool
  | 0, _, s => (s, true)
  | count + 1, i, s => andThen (q.single i s) (scan q count (i + 1))

/-- All elements are known to match. -/
def reportRange (q : Search S) : Nat → Nat → S → S × Bool
  | 0, _, s => (s, true)
  | count + 1, i, s => andThen (q.report i s) (reportRange q count (i + 1))

def hasBit (w : UInt64) (b : Nat) : Bool := w >>> UInt64.ofNat b &&& 1 != 0

/-- The set bits from `b` on, of which each stands for element `i + b / perLane`. -/
def reportBits (q : Search S) (hits : UInt64) (perLane i : Nat) : Nat → Nat → S → S × Bool
  | 0, _, s => (s, true)
  | count + 1, b, s =>
      if hasBit hits b then
        andThen (q.report (i + b / perLane) s) (reportBits q hits perLane i count (b + 1))
      else reportBits q hits perLane i count (b + 1) s

/-- A batch is offered whole before its matches are reported. -/
def reportHits (q : Search S) (hits : UInt64) (perLane i : Nat) (s : S) : S × Bool :=
  if hits = 0 then (s, true)
  else
    match q.receiver.onBatch s (i + q.base) hits with
    | some s => (s, true)
    | none => q.reportBits hits perLane i 64 0 s

/-- Groups of `lanes` elements, `count` of them from `i` on. -/
def groups (group : Nat → S → S × Bool) (lanes : Nat) : Nat → Nat → S → S × Bool
  | 0, _, s => (s, true)
  | count + 1, i, s => andThen (group i s) (groups group lanes count (i + lanes))

/-- Aligned groups go through `group`; what is before and after them is scanned. -/
def aligned (q : Search S) (group : Nat → S → S × Bool) (lanes start stop : Nat) (s : S) :
    S × Bool :=
  let first := min ((start + lanes - 1) / lanes * lanes) stop
  let count := (stop - first) / lanes
  let last := first + count * lanes
  andThen (q.scan (first - start) start s) fun s =>
    andThen (groups group lanes count first s) fun s => q.scan (stop - last) last s

/-! ### Blocks of 16 bytes -/

/-- One bit for each lane of a block that satisfies the test; the needle is cut to the width. -/
def blockHits (q : Search S) (i : Nat) : Nat → UInt64
  | 0 => 0
  | lane + 1 =>
      let hits := blockHits q i lane
      if q.test.int (q.get (i + lane)) (Memory.signExtend q.width q.needle.toUInt64) then
        hits ||| (1 <<< UInt64.ofNat lane)
      else hits

def blockLanes (q : Search S) : Nat := 128 / q.width

def block (q : Search S) (i : Nat) (s : S) : S × Bool :=
  q.reportHits (q.blockHits i q.blockLanes) 1 i s

/-! ### Words of 64 bits -/

def laneMask (w : Nat) : UInt64 := if 64 ≤ w then ~~~0 else (1 <<< UInt64.ofNat w) - 1

/-- The lowest bit of every lane. -/
def lowBits (w : Nat) : UInt64 := (~~~0) / laneMask w

/-- The highest bit of every lane. -/
def highBits (w : Nat) : UInt64 := lowBits w <<< UInt64.ofNat (w - 1)

def wordLanes (q : Search S) : Nat := 64 / q.width

def wordAt (q : Search S) (i : Nat) : UInt64 := q.memory.word (q.data + i * q.width / 8)

/-- The high bit of every lane that is not zero. -/
def nonzeroLanes (w : Nat) (x : UInt64) : UInt64 :=
  let high := highBits w
  ((x &&& ~~~high) + ~~~high ||| x) &&& high

/-- The exclusive or with a word of needles has a zero lane for each match. -/
def equalityHits (w : Nat) (equal : Bool) (needle : Int64) (word : UInt64) : UInt64 :=
  let nonzero := nonzeroLanes w (word ^^^ lowBits w * (needle.toUInt64 &&& laneMask w))
  if equal then ~~~nonzero &&& highBits w else nonzero

/-- With all high bits clear, subtracting the threshold from each lane leaves the high bit set iff
the lane reaches it. -/
def relationHits (w : Nat) (greater : Bool) (needle : Int64) (word : UInt64) : UInt64 :=
  let high := highBits w
  let threshold := if greater then needle + 1 else needle
  let reached := ((word ||| high) - lowBits w * threshold.toUInt64) &&& high
  if greater then reached else ~~~reached &&& high

def equalityWord (q : Search S) (equal : Bool) (i : Nat) (s : S) : S × Bool :=
  q.reportHits (equalityHits q.width equal q.needle (q.wordAt i)) q.width i s

def relationWord (q : Search S) (greater : Bool) (i : Nat) (s : S) : S × Bool :=
  let word := q.wordAt i
  if word &&& highBits q.width = 0 then
    q.reportHits (relationHits q.width greater q.needle word) q.width i s
  else q.scan q.wordLanes i s

/-- The needle leaves room below the high bit of a lane. -/
def relationFits (w : Nat) (greater : Bool) (needle : Int64) : Bool :=
  let laneMax := (laneMask w >>> 1).toInt64
  2 ≤ w && 0 ≤ needle && needle ≤ laneMax - if greater then 1 else 0

/-- Words for widths below 64 and the four comparisons they know. -/
def byWords (q : Search S) (start stop : Nat) (s : S) : S × Bool :=
  let relation (greater : Bool) :=
    if q.width < 64 ∧ relationFits q.width greater q.needle then
      q.aligned (q.relationWord greater) q.wordLanes start stop s
    else q.scan (stop - start) start s
  match q.test with
  | .equal =>
      if q.width < 64 then q.aligned (q.equalityWord true) q.wordLanes start stop s
      else q.scan (stop - start) start s
  | .notEqual =>
      if q.width < 64 then q.aligned (q.equalityWord false) q.wordLanes start stop s
      else q.scan (stop - start) start s
  | .greater => relation true
  | .less => relation false
  | _ => q.scan (stop - start) start s

def hasBlockForm : Comparison → Bool
  | .equal | .notEqual | .greater | .less => true
  | _ => false

/-- Blocks are used where the machine has them (`blocks`) and at least one whole block is aligned. -/
def byWidth (q : Search S) (blocks : Nat → Bool) (start stop : Nat) (s : S) : S × Bool :=
  if q.width = 0 then q.scan (stop - start) start s
  else if 8 ≤ q.width ∧ blocks q.width ∧ hasBlockForm q.test then
    let lanes := q.blockLanes
    let first := min ((start + lanes - 1) / lanes * lanes) stop
    if 0 < (stop - first) / lanes then q.aligned q.block lanes start stop s
    else q.byWords start stop s
  else q.byWords start stop s

/-- The bounds of the width may rule every element out or in. -/
def byBounds (q : Search S) (blocks : Nat → Bool) (start stop : Nat) (s : S) : S × Bool :=
  let lower := Width.lower q.width
  let upper := Width.upper q.width
  if !q.test.mayHold q.needle lower upper then (s, true)
  else if q.test.mustHold q.needle lower upper then
    match q.receiver.onRange s start stop with
    | some r => r
    | none => q.reportRange (stop - start) start s
  else q.byWidth blocks start stop s

/-- How many elements are tested singly by a search that resumes after a match. -/
def resumeTests : Nat := 4

def run (q : Search S) (blocks : Nat → Bool) (start stop : Nat) (s : S) : S × Bool :=
  let tests := if start = 0 then 0 else min resumeTests (stop - start)
  andThen (q.scan tests start s) fun s =>
    if stop ≤ start + tests then (s, true) else q.byBounds blocks (start + tests) stop s

end Search

namespace Node

variable {S : Type}

/-- The end of a range of `size` elements; without a bound it is their number. -/
def stopOf (size : Nat) (stop : Option Nat) : Nat := min (stop.getD size) size

def search (m : Memory) (n : Node) (r : Receiver S) (test : Comparison) (needle : Int64)
    (base : Nat) : Search S :=
  ⟨m, n.data, n.width, test, needle, base, r⟩

/-- Block comparisons exist for all widths of whole bytes. -/
def blockWidth (w : Nat) : Bool := 8 ≤ w

/-- Reports every match from `start` on; the flag tells that the receiver did not stop it. -/
def find (m : Memory) (n : Node) (r : Receiver S) (test : Comparison) (needle : Int64)
    (start : Nat) (stop : Option Nat) (base : Nat) (s : S) : S × Bool :=
  (n.search m r test needle base).run blockWidth start (stopOf n.size stop) s

def findFirst (m : Memory) (n : Node) (test : Comparison) (needle : Int64) (start : Nat)
    (stop : Option Nat) : Option Nat :=
  (n.find m .first test needle start stop 0 none).1

/-- The indices of all elements equal to `v`. -/
def findAll (m : Memory) (n : Node) (v : Int64) (start : Nat) (stop : Option Nat) (base : Nat) :
    List Nat :=
  (n.find m .collect .equal v start stop base []).1.reverse

/-- Pairs of elements of two nodes, `count` of them, reported by the first of each pair. -/
def compareFrom (m : Memory) (a b : Node) (r : Receiver S) (test : Comparison) (i j base : Nat) :
    Nat → S → S × Bool
  | 0, s => (s, true)
  | count + 1, s =>
      let v := a.get m i
      let next := compareFrom m a b r test (i + 1) (j + 1) (base + 1) count
      if test.int v (b.get m j) then Search.andThen (r.onMatch s base v) next else next s

end Node

end ColumnStore
