import ColumnStore.Column.Scalar
import ColumnStore.Proofs.Scans
import ColumnStore.Proofs.ScalarLeaf
import Mathlib.Data.Prod.Lex

set_option autoImplicit false

/-!
The least and the greatest value in a column of floating point numbers. Only the order is asked, and
a value that is no number is neither less nor greater than any. A leaf begins with its first value
in the range, so one that begins with no number is passed over; apart from that the leaves do not
matter.
-/
namespace ColumnStore

/-! ### Values without an order -/

/-- An order of which some values have no part: what is no number is neither better nor worse than
anything. Numbers that are not ranked against each other are worth the same. -/
structure Orders {α : Type} (better : α → α → Bool) (number : α → Bool) : Prop where
  left {a b : α} : better a b = true → number a = true
  right {a b : α} : better a b = true → number b = true
  trans {a b c : α} : better a b = true → better b c = true → better a c = true
  split {a b c : α} : better a c = true → number b = true → better a b = true ∨ better b c = true

theorem Orders.flip {α : Type} {better : α → α → Bool} {number : α → Bool}
    (orders : Orders better number) : Orders (fun a b => better b a) number where
  left h := orders.right h
  right h := orders.left h
  trans first second := orders.trans second first
  split h b := (orders.split h b).symm

theorem orders_of_rank {α β : Type} [LinearOrder β] {better : α → α → Bool} (rank : α → Option β)
    (iff : ∀ a b, better a b = true ↔ ∃ x ∈ rank a, ∃ y ∈ rank b, x < y) :
    Orders better fun a => (rank a).isSome where
  left h := by
    obtain ⟨x, there, -⟩ := (iff _ _).mp h
    exact Option.isSome_of_mem there
  right h := by
    obtain ⟨-, -, y, there, -⟩ := (iff _ _).mp h
    exact Option.isSome_of_mem there
  trans first second := by
    obtain ⟨x, here, y, there, less⟩ := (iff _ _).mp first
    obtain ⟨y', there', z, far, less'⟩ := (iff _ _).mp second
    cases there.symm.trans there'
    exact (iff _ _).mpr ⟨x, here, z, far, less.trans less'⟩
  split h number := by
    obtain ⟨x, here, z, far, less⟩ := (iff _ _).mp h
    obtain ⟨y, there⟩ := Option.isSome_iff_exists.mp number
    rcases lt_or_ge x y with less' | ge
    · exact .inl ((iff _ _).mpr ⟨x, here, y, there, less'⟩)
    · exact .inr ((iff _ _).mpr ⟨y, there, z, far, ge.trans_lt less⟩)

open Float.Model in
/-- Numbers are ranked by kind and sign, exponent and mantissa. -/
def rank : UnpackedFloat → Option (Int ×ₗ Int ×ₗ Int)
  | .notANumber => none
  | .infinity .negative => some (toLex (-2, toLex (0, 0)))
  | .finite .negative m e _ => some (toLex (-1, toLex (-e, -m)))
  | .zero _ => some (toLex (0, toLex (0, 0)))
  | .finite .positive m e _ => some (toLex (1, toLex (e, m)))
  | .infinity .positive => some (toLex (2, toLex (0, 0)))

theorem lt_iff_rank (a b : Float.Model.UnpackedFloat) :
    a.lt b = true ↔ ∃ x ∈ rank a, ∃ y ∈ rank b, x < y := by
  rcases a with (_ | _) | _ | _ | ⟨_ | _, m, e, _⟩ <;>
    rcases b with (_ | _) | _ | _ | ⟨_ | _, n, f, _⟩ <;>
    dsimp only [rank, Float.Model.UnpackedFloat.lt, Float.Model.UnpackedFloat.compare] <;>
    simp [Prod.Lex.toLex_lt_toLex]
  case infinity.negative.infinity.positive => rfl
  case finite.negative.finite.negative =>
    rw [Ordering.then_eq_gt, compare_gt_iff_gt, compare_eq_iff_eq, compare_gt_iff_gt]
  case finite.positive.finite.positive =>
    rw [Ordering.then_eq_lt, compare_lt_iff_lt, compare_eq_iff_eq, compare_lt_iff_lt]

theorem isSome_rank (a : Float.Model.UnpackedFloat) : (rank a).isSome = !a.isNaN := by
  rcases a with (_ | _) | _ | _ | ⟨_ | _, m, e, _⟩ <;> rfl

/-- Values that are compared as numbers, except those that are none. -/
class OrderedScalar (α : Type) [Scalar α] where
  number : α → Bool
  less : Orders (Scalar.holds .less : α → α → Bool) number
  greater (a b : α) : Scalar.holds .greater a b = Scalar.holds .less b a

theorem less_single (a b : Single) : Scalar.holds .less a b =
    a.float.toModel.unpack.lt b.float.toModel.unpack := by
  show decide (Float32.lt a.float b.float = true) = _
  rw [Bool.decide_eq_true]
  exact Bool.decide_eq_true

theorem less_double (a b : Double) : Scalar.holds .less a b =
    a.float.toModel.unpack.lt b.float.toModel.unpack := by
  show decide (Float.lt a.float b.float = true) = _
  rw [Bool.decide_eq_true]
  exact Bool.decide_eq_true

/-- Floating point numbers are ordered by what they are unpacked to. -/
theorem orders_of_model {α : Type} {better : α → α → Bool} (model : α → Float.Model.UnpackedFloat)
    (same : ∀ a b, better a b = (model a).lt (model b)) :
    Orders better fun a => !(model a).isNaN := by
  simp only [← isSome_rank]
  exact orders_of_rank (rank ∘ model) fun a b => by rw [same, lt_iff_rank]; rfl

instance : OrderedScalar Single where
  number x := !x.float.isNaN
  less := by
    simp only [Float32.isNaN, Float32.Model.isNaN]
    exact orders_of_model _ less_single
  greater a b := by
    simp only [Scalar.holds, Comparison.float32, Comparison.holds]

instance : OrderedScalar Double where
  number x := !x.float.isNaN
  less := by
    simp only [Float.isNaN, Float.Model.isNaN]
    exact orders_of_model _ less_double
  greater a b := by
    simp only [Scalar.holds, Comparison.float, Comparison.holds]

/-! ### The best of some rows -/

section Rows

variable {α : Type} {better : α → α → Bool} {number : α → Bool} {get : Nat → α} {rows : List Nat}
  {best next : α × Nat}

/-- The better of two finds; `best` was found first and wins a tie. -/
def prefer (better : α → α → Bool) (next best : α × Nat) : α × Nat :=
  if better next.1 best.1 then next else best

/-- The best of `best` and the values in some rows. -/
def bestFrom (better : α → α → Bool) (get : Nat → α) (rows : List Nat) (best : α × Nat) : α × Nat :=
  rows.foldl (fun best row => prefer better (get row, row) best) best

/-- The best of the values in some rows, beginning with the first. -/
def bestAmong (better : α → α → Bool) (get : Nat → α) : List Nat → Option (α × Nat)
  | [] => none
  | row :: rows => some (bestFrom better get rows (get row, row))

theorem extremeFrom_eq (better : α → α → Bool) (get : Nat → α) (count i : Nat) (best : α × Nat) :
    Node.extremeFrom get better count i best = bestFrom better get (List.range' i count) best := by
  induction count generalizing i best with
  | zero => rfl
  | succ count ih =>
      rw [Node.extremeFrom, ih, List.range'_succ]
      rfl

variable (orders : Orders better number)
include orders

/-- In the middle of three there has to be a number. -/
theorem prefer_assoc {last : α × Nat} (middle : number next.1 = true) :
    prefer better last (prefer better next best) =
      prefer better (prefer better last next) best := by
  by_cases second : better next.1 best.1 = true
  · have chosen : prefer better next best = next := if_pos second
    rw [chosen]
    by_cases third : better last.1 next.1 = true
    · have chosen : prefer better last next = last := if_pos third
      rw [chosen, prefer, if_pos (orders.trans third second)]
    · have chosen : prefer better last next = next := if_neg third
      rw [chosen, prefer, if_pos second]
  · have chosen : prefer better next best = best := if_neg second
    rw [chosen]
    by_cases third : better last.1 next.1 = true
    · have chosen : prefer better last next = last := if_pos third
      rw [chosen]
    · have kept : prefer better last next = next := if_neg third
      have worse : ¬ better last.1 best.1 = true := fun improves =>
        (orders.split improves middle).elim third second
      rw [kept, chosen, prefer, if_neg worse]

theorem bestFrom_prefer (middle : number next.1 = true) :
    bestFrom better get rows (prefer better next best) =
      prefer better (bestFrom better get rows next) best := by
  induction rows generalizing next with
  | nil => rfl
  | cons row rows ih =>
      rw [bestFrom, List.foldl_cons, prefer_assoc orders middle, ← bestFrom, ih]
      · rfl
      · rw [prefer]
        split
        next improves => exact orders.left improves
        next => exact middle

/-- What is no number is never replaced. -/
theorem bestFrom_other (other : number best.1 = false) : bestFrom better get rows best = best := by
  induction rows with
  | nil => rfl
  | cons row rows ih =>
      have kept : prefer better (get row, row) best = best :=
        if_neg fun improves => by rw [orders.right improves] at other; cases other
      rw [bestFrom, List.foldl_cons, kept]
      exact ih

omit orders in
theorem bestFrom_shift (offset : Nat) :
    bestFrom better get (rows.map (offset + ·)) (best.1, offset + best.2) =
      ((bestFrom better (fun i => get (offset + i)) rows best).1,
        offset + (bestFrom better (fun i => get (offset + i)) rows best).2) := by
  induction rows generalizing best with
  | nil => rfl
  | cons row rows ih =>
      have step : prefer better (get (offset + row), offset + row) (best.1, offset + best.2) =
          ((prefer better (get (offset + row), row) best).1,
            offset + (prefer better (get (offset + row), row) best).2) := by
        simp only [prefer]
        split <;> rfl
      rw [List.map_cons, bestFrom, List.foldl_cons, step]
      exact ih

theorem bestAmong_other {row : Nat} (other : number (get row) = false) :
    bestAmong better get (row :: rows) = some (get row, row) :=
  congrArg some (bestFrom_other orders other)

end Rows

/-! ### Pieces -/

namespace Tree

variable {α L V : Type} [Leaf L V] {better : α → α → Bool} {number : α → Bool} {get : Nat → α}
  {ps : List (Piece L)} {p : Piece L} {best : α × Nat} {extreme : L → Nat → Nat → Option (α × Nat)}

/-- The first row of a piece holds a number. -/
def headed (number : α → Bool) (get : Nat → α) (p : Piece L) : Bool :=
  number (get (p.offset + p.start))

/-- An extreme begins each leaf anew with the first value there. So it sees the rows of the first
piece, and those of later pieces that begin with a number. -/
def seen (number : α → Bool) (get : Nat → α) : List (Piece L) → List Nat
  | [] => []
  | p :: ps => p.rows ++ (ps.filter (headed number get)).flatMap Piece.rows

/-- The rows of a piece and what `extreme` finds there. -/
structure Answers (better : α → α → Bool) (get : Nat → α)
    (extreme : L → Nat → Nat → Option (α × Nat)) (p : Piece L) : Prop where
  filled : p.start < p.stop
  found : extreme p.leaf p.start p.stop = bestAmong better (fun i => get (p.offset + i))
    (List.range' p.start (p.stop - p.start))

/-- What is found in a piece, counted in rows of the column. -/
theorem Answers.shifted (answers : Answers better get extreme p) : ∃ rows v i,
    p.rows = (p.offset + p.start) :: rows ∧ extreme p.leaf p.start p.stop = some (v, i) ∧
      (v, p.offset + i) =
        bestFrom better get rows (get (p.offset + p.start), p.offset + p.start) := by
  obtain ⟨filled, found⟩ := answers
  obtain ⟨count, more⟩ : ∃ count, p.stop - p.start = count + 1 :=
    Nat.exists_eq_add_one_of_ne_zero (by omega)
  rw [more, List.range'_succ] at found
  refine ⟨_, _, _, ?_, found, (bestFrom_shift p.offset).symm⟩
  rw [Piece.rows_eq_map, more, List.range'_succ, List.map_cons]

theorem bestFrom_append (rows later : List Nat) :
    bestFrom better get (rows ++ later) best =
      bestFrom better get later (bestFrom better get rows best) :=
  List.foldl_append

/-- The induction is over the pieces after the first, so that there is something to compare with. -/
theorem bestOf_some (orders : Orders better number)
    (each : ∀ p ∈ ps, Answers better get extreme p) :
    bestOf extreme better ps (some best) =
      some (bestFrom better get ((ps.filter (headed number get)).flatMap Piece.rows) best) := by
  induction ps generalizing best with
  | nil => rfl
  | cons p ps ih =>
      obtain ⟨answers, each⟩ := List.forall_mem_cons.mp each
      obtain ⟨rows, v, i, parts, found, same⟩ := answers.shifted
      have step : bestOf extreme better (p :: ps) (some best) =
          bestOf extreme better ps (some (prefer better (v, p.offset + i) best)) := by
        conv_lhs => unfold bestOf
        rw [found, prefer]
        congr 1
        simp only
        split <;> rfl
      rw [step, ih each, same]
      generalize first : get (p.offset + p.start) = w at parts same
      cases head : number w with
      | true =>
          have joined : bestFrom better get rows (prefer better (w, p.offset + p.start) best) =
              prefer better (bestFrom better get rows (w, p.offset + p.start)) best :=
            bestFrom_prefer orders head
          rw [List.filter_cons_of_pos (by rw [headed, first, head]), List.flatMap_cons,
            bestFrom_append, parts, ← joined, ← first]
          rfl
      | false =>
          have kept : bestFrom better get rows (w, p.offset + p.start) = (w, p.offset + p.start) :=
            bestFrom_other orders head
          have worse : ¬ better w best.1 = true := fun improves => by
            rw [orders.left improves] at head
            cases head
          rw [List.filter_cons_of_neg (by rw [headed, first, head]; decide), kept, prefer,
            if_neg worse]

theorem bestOf_none (orders : Orders better number)
    (each : ∀ p ∈ ps, Answers better get extreme p) :
    bestOf extreme better ps none = bestAmong better get (seen number get ps) := by
  cases ps with
  | nil => rfl
  | cons p ps =>
      obtain ⟨answers, each⟩ := List.forall_mem_cons.mp each
      obtain ⟨rows, v, i, parts, found, same⟩ := answers.shifted
      have step : bestOf extreme better (p :: ps) none =
          bestOf extreme better ps (some (v, p.offset + i)) := by
        conv_lhs => unfold bestOf
        rw [found]
      rw [step, bestOf_some orders each, seen, parts, List.cons_append, bestAmong, bestFrom_append,
        same]

/-- All rows count if none is passed over, and also if the first one is never replaced. -/
theorem bestAmong_seen (orders : Orders better number) {row : Nat} {rows : List Nat}
    (whole : ps.flatMap Piece.rows = row :: rows) (filled : ∀ p ∈ ps, p.start < p.stop)
    (numbers : number (get row) = true → ∀ p ∈ ps.tail, headed number get p = true) :
    bestAmong better get (seen number get ps) = bestAmong better get (row :: rows) := by
  cases ps with
  | nil => cases whole
  | cons p ps =>
      cases head : number (get row) with
      | true =>
          have all : ps.filter (headed number get) = ps := List.filter_eq_self.mpr (numbers head)
          rw [seen, all, ← List.flatMap_cons, whole]
      | false =>
          obtain ⟨count, more⟩ : ∃ count, p.stop - p.start = count + 1 :=
            Nat.exists_eq_add_one_of_ne_zero (Nat.sub_ne_zero_of_lt (filled p (by simp)))
          rw [List.flatMap_cons, Piece.rows, more, List.range'_succ, List.cons_append] at whole
          rw [seen, Piece.rows, more, List.range'_succ, List.cons_append, (List.cons.inj whole).1,
            bestAmong_other orders head, bestAmong_other orders head]

end Tree

/-! ### Leaves and columns -/

namespace Tree

variable {L V : Type} [Leaf L V] [ListLeaf L] {m : Memory} {base start stop place : Nat}
  {own : Set Nat} {ls : List (L × Nat)} {t : Tree L} {vs : List V}

theorem cut_filled (leaves : Leaves m base ls place vs)
    (behind : ∀ e ∈ ls, start < e.2 + Leaf.size e.1) (filled : ∀ e ∈ ls, 0 < Leaf.size e.1)
    (some : max start place < stop) : ∀ p ∈ cut start stop ls, p.start < p.stop := by
  induction ls generalizing place vs with
  | nil => exact List.forall_mem_nil _
  | cons e ls ih =>
      obtain ⟨leaf, offset⟩ := e
      obtain ⟨same, ws, rest, own, rfl, held, leaves⟩ := leaves
      obtain ⟨ends, behind⟩ := List.forall_mem_cons.mp behind
      obtain ⟨here, filled⟩ := List.forall_mem_cons.mp filled
      dsimp only at same ends here held
      have size := ListLeaf.size held
      refine List.forall_mem_cons.mpr ⟨?_, ?_⟩
      · show start - offset < min (stop - offset) (Leaf.size leaf)
        omega
      · split
        next more => exact ih leaves behind filled (by omega)
        next => exact List.forall_mem_nil _

/-- No piece is empty. -/
theorem pieces_filled (h : (holds t vs).holds m base own) (small : vs.length < Slot.countBound)
    (start : Nat) (stop : Option Nat) : ∀ p ∈ t.pieces m start stop, p.start < p.stop := by
  rw [pieces]
  split
  next some =>
    obtain ⟨front, back, parts, listed⟩ := leavesFrom_of_holds h small start
    obtain ⟨-, filled, later⟩ := visits_of_holds h small
    refine cut_filled listed.leaves listed.behind (fun e inside => filled e ?_) ?_
    · rw [later] at inside
      exact List.mem_of_mem_filter inside
    · by_cases none : front = []
      · simpa [none] using some
      · have := listed.before none
        omega
  next => exact List.forall_mem_nil _

end Tree

section Scalars

variable {α : Type} [Scalar α] {m : Memory} {base : Nat} {own : Set Nat} {better : Comparison}
  {number : α → Bool} {c : ScalarColumn α} {vs : List α}

theorem orders_greater [OrderedScalar α] :
    Orders (Scalar.holds .greater : α → α → Bool) OrderedScalar.number := by
  have flipped := Orders.flip (OrderedScalar.less (α := α))
  simp only [← OrderedScalar.greater] at flipped
  exact flipped

/-- An extreme in one leaf looks at all rows. -/
theorem ScalarLeaf.extreme_eq (m : Memory) (l : ScalarLeaf α) (better : Comparison) (start : Nat)
    (stop : Option Nat) : l.extreme m better start stop =
      bestAmong (Scalar.holds better) (l.get m) (rangeOf l.size start stop) := by
  rw [extreme, rangeOf]
  split
  next some =>
    have more : Node.stopOf l.size stop - start = Node.stopOf l.size stop - (start + 1) + 1 := by
      omega
    rw [more, List.range'_succ, bestAmong, extremeFrom_eq]
  next none =>
    rw [Nat.sub_eq_zero_of_le (Nat.le_of_not_lt none)]
    rfl

omit [Scalar α] in
theorem bestFrom_congr {better : α → α → Bool} {get get' : Nat → α} {rows : List Nat}
    {best : α × Nat} (same : ∀ row ∈ rows, get row = get' row) :
    bestFrom better get rows best = bestFrom better get' rows best := by
  induction rows generalizing best with
  | nil => rfl
  | cons row rows ih =>
      obtain ⟨here, rest⟩ := List.forall_mem_cons.mp same
      rw [bestFrom, bestFrom, List.foldl_cons, List.foldl_cons, here]
      exact ih rest

omit [Scalar α] in
theorem bestAmong_congr {better : α → α → Bool} {get get' : Nat → α} {rows : List Nat}
    (same : ∀ row ∈ rows, get row = get' row) :
    bestAmong better get rows = bestAmong better get' rows := by
  cases rows with
  | nil => rfl
  | cons row rows =>
      obtain ⟨here, rest⟩ := List.forall_mem_cons.mp same
      rw [bestAmong, bestAmong, here, bestFrom_congr rest]

namespace ScalarColumn

variable [LawfulScalar α] (h : (Tree.holds c vs).holds m base own)
  (small : vs.length < Slot.countBound)
include h small

theorem answers_of_holds (better : Comparison) (start : Nat) (stop : Option Nat) :
    ∀ p ∈ c.pieces m start stop, Tree.Answers (Scalar.holds better) (vs.getD · Scalar.zero)
      (fun leaf s e => leaf.extreme m better s (some e)) p := by
  intro p inside
  have lies := (Tree.pieces_of_holds h small start stop).2 p inside
  have whole : Node.stopOf p.leaf.size (some p.stop) = p.stop := Nat.min_eq_left lies.stop_le
  refine ⟨Tree.pieces_filled h small start stop p inside, ?_⟩
  rw [ScalarLeaf.extreme_eq, rangeOf, whole]
  exact bestAmong_congr fun i here => (lies.getD here Scalar.zero).symm

/-- An extreme of a column is the best of the rows that it sees. -/
theorem extreme_of_holds (orders : Orders (Scalar.holds better) number) (start : Nat)
    (stop : Option Nat) :
    Tree.bestOf (fun leaf s e => leaf.extreme m better s (some e)) (Scalar.holds better)
        (c.pieces m start stop) none =
      bestAmong (Scalar.holds better) (vs.getD · Scalar.zero)
        (Tree.seen number (vs.getD · Scalar.zero) (c.pieces m start stop)) :=
  Tree.bestOf_none orders (answers_of_holds h small better start stop)

/-- Whatever the leaves are, the extremes are the best of the rows that are seen. -/
theorem extremes_of_holds [OrderedScalar α] (start : Nat) (stop : Option Nat) :
    c.minimum m start stop = bestAmong (Scalar.holds .less) (vs.getD · Scalar.zero)
        (Tree.seen OrderedScalar.number (vs.getD · Scalar.zero) (c.pieces m start stop)) ∧
      c.maximum m start stop = bestAmong (Scalar.holds .greater) (vs.getD · Scalar.zero)
        (Tree.seen OrderedScalar.number (vs.getD · Scalar.zero) (c.pieces m start stop)) :=
  ⟨extreme_of_holds h small OrderedScalar.less start stop,
    extreme_of_holds h small orders_greater start stop⟩

/-- Where the range begins with no number, or every later leaf with one, all rows count as they do
in one leaf. -/
theorem extremes_whole [OrderedScalar α] {start : Nat} {stop : Option Nat}
    (numbers : OrderedScalar.number (vs.getD start Scalar.zero) = true →
      ∀ p ∈ (c.pieces m start stop).tail,
        Tree.headed OrderedScalar.number (vs.getD · Scalar.zero) p = true) :
    c.minimum m start stop = bestAmong (Scalar.holds .less) (vs.getD · Scalar.zero)
        (rangeOf vs.length start stop) ∧
      c.maximum m start stop = bestAmong (Scalar.holds .greater) (vs.getD · Scalar.zero)
        (rangeOf vs.length start stop) := by
  obtain ⟨least, greatest⟩ := extremes_of_holds h small start stop
  obtain ⟨rows, -⟩ := Tree.pieces_of_holds h small start stop
  have filled := Tree.pieces_filled h small start stop
  rw [least, greatest, rangeOf]
  generalize c.pieces m start stop = ps at rows filled numbers ⊢
  cases count : Node.stopOf vs.length stop - start with
  | zero =>
      rw [count, List.range'_zero] at rows
      cases ps with
      | nil => exact ⟨rfl, rfl⟩
      | cons p ps =>
          have some := filled p (by simp)
          have none := (List.append_eq_nil_iff.mp rows).1
          rw [Piece.rows, List.range'_eq_nil_iff] at none
          omega
  | succ count' =>
      rw [count, List.range'_succ] at rows
      rw [List.range'_succ]
      exact ⟨Tree.bestAmong_seen OrderedScalar.less rows filled numbers,
        Tree.bestAmong_seen orders_greater rows filled numbers⟩

end ScalarColumn

end Scalars

end ColumnStore
