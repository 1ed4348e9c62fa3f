import ColumnStore.Node.Edit
import ColumnStore.Proofs.Bits
import ColumnStore.Proofs.Memory

set_option autoImplicit false

/-!
Packed elements as a list. Every edit of them writes whole elements, and the places it reads are
never places it has written before.
-/
namespace ColumnStore.Memory

def elements (m : Memory) (p w n : Nat) : List Int64 := (List.range n).map (m.element p w)

@[simp] theorem length_elements (m : Memory) (p w n : Nat) : (m.elements p w n).length = n := by
  simp [elements]

@[simp] theorem getElem_elements (m : Memory) (p w n i : Nat) (inside : i < (m.elements p w n).length) :
    (m.elements p w n)[i] = m.element p w i := by
  simp [elements]

theorem getElem?_elements (m : Memory) (p w n i : Nat) :
    (m.elements p w n)[i]? = if i < n then some (m.element p w i) else none := by
  by_cases inside : i < n <;> simp [elements, inside]

theorem elements_eq {m : Memory} {p w n : Nat} {vs : List Int64} (length : vs.length = n)
    (same : ∀ i, i < n → vs[i]? = some (m.element p w i)) : m.elements p w n = vs := by
  apply List.ext_getElem?
  intro i
  rw [getElem?_elements]
  by_cases inside : i < n
  · rw [if_pos inside, same i inside]
  · rw [if_neg inside, List.getElem?_eq_none (by omega)]

theorem elements_take (m : Memory) {p w n k : Nat} (fewer : k ≤ n) :
    m.elements p w k = (m.elements p w n).take k := by
  apply elements_eq
  · rw [List.length_take, length_elements]
    omega
  · intro i inside
    rw [List.getElem?_take, if_pos inside, getElem?_elements, if_pos (by omega)]

theorem elements_zero_width (m : Memory) (p n : Nat) : m.elements p 0 n = List.replicate n 0 := by
  apply elements_eq (by simp)
  intro i inside
  simp [element, inside]

/-- The same bits everywhere but in `n` bits from bit `k` on. -/
def SameBits (m m' : Memory) (k n : Nat) : Prop := ∀ b, b < k ∨ k + n ≤ b → m'.bit b = m.bit b

theorem SameBits.refl (m : Memory) (k n : Nat) : SameBits m m k n := fun _ _ => rfl

theorem SameBits.trans {m m' m'' : Memory} {k n : Nat} (first : SameBits m m' k n)
    (second : SameBits m' m'' k n) : SameBits m m'' k n :=
  fun b outside => (second b outside).trans (first b outside)

theorem SameBits.mono {m m' : Memory} {k n k' n' : Nat} (same : SameBits m m' k n) (low : k' ≤ k)
    (high : k + n ≤ k' + n') : SameBits m m' k' n' :=
  fun b outside => same b (by omega)

theorem SameBits.get {m m' : Memory} {p n bits : Nat} (same : SameBits m m' (8 * p) bits)
    (fits : bits ≤ 8 * n) {a : Nat} (outside : a < p ∨ p + n ≤ a) : m'.get a = m.get a := by
  apply get_eq_of_bits
  intro j inside
  exact same _ (by omega)

theorem element_congr {m m' : Memory} {p p' w i i' : Nat} (legal : w ∈ Width.legal)
    (same : ∀ j, j < w → m.bit (8 * p + i * w + j) = m'.bit (8 * p' + i' * w + j)) :
    m.element p w i = m'.element p' w i' := by
  rw [← Int64.toInt_inj, toInt_element _ _ _ _ legal, toInt_element _ _ _ _ legal,
    field_congr same]

theorem SameBits.element {m m' : Memory} {p w i k n : Nat} (same : SameBits m m' k n)
    (legal : w ∈ Width.legal) (outside : 8 * p + i * w + w ≤ k ∨ k + n ≤ 8 * p + i * w) :
    m'.element p w i = m.element p w i := by
  apply element_congr legal
  intro j inside
  exact same _ (by omega)

/-- The same bytes elsewhere hold the same elements. -/
theorem elements_congr {m m' : Memory} {p p' w n bytes : Nat} (legal : w ∈ Width.legal)
    (fits : n * w ≤ 8 * bytes) (same : ∀ k, k < bytes → m'.get (p' + k) = m.get (p + k)) :
    m'.elements p' w n = m.elements p w n := by
  apply elements_eq (by simp)
  intro i inside
  rw [getElem?_elements, if_pos inside]
  congr 1
  apply element_congr legal
  intro j within
  have last := Nat.mul_le_mul_right w (show i + 1 ≤ n from inside)
  rw [Nat.succ_mul i w] at last
  have byte := same ((i * w + j) / 8) (by omega)
  have place : (8 * p + i * w + j) / 8 = p + (i * w + j) / 8 := by omega
  have place' : (8 * p' + i * w + j) / 8 = p' + (i * w + j) / 8 := by omega
  have rest : (8 * p + i * w + j) % 8 = (8 * p' + i * w + j) % 8 := by omega
  rw [bit, bit, place, place', rest, byte]

/-! ### Writing one element -/

theorem decode_truncate {w : Nat} (legal : w ∈ Width.legal) {v : Int64}
    (fits : Width.fits w v = true) : decode w (v.toUInt64.toNat % 2 ^ w) = v.toInt := by
  have bits := toNat_toUInt64 v
  have low := Int64.le_toInt v
  have high := Int64.toInt_lt v
  rw [Width.fits_iff, Width.toInt_lower legal, Width.toInt_upper legal] at fits
  rw [Width.mem_legal] at legal
  rcases legal with rfl | rfl | rfl | rfl | rfl | rfl | rfl | rfl <;>
    simp [decode, Int.bmod_def] at fits ⊢ <;> omega

theorem sameBits_setElement (m : Memory) (p w i : Nat) (v : Int64) (legal : w ∈ Width.legal) :
    SameBits m (m.setElement p w i v) (8 * p + i * w) w := by
  intro b outside
  rw [bit_setElement m p w i v legal, Nat.succ_mul i w]
  exact if_neg (by omega)

theorem element_setElement_same (m : Memory) {p w i : Nat} {v : Int64} (legal : w ∈ Width.legal)
    (fits : Width.fits w v = true) : (m.setElement p w i v).element p w i = v := by
  have written : (m.setElement p w i v).field (8 * p + i * w) w = v.toUInt64.toNat % 2 ^ w := by
    apply Nat.eq_of_testBit_eq
    intro j
    rw [testBit_field, Nat.testBit_mod_two_pow, bit_setElement m p w i v legal, Nat.succ_mul i w]
    by_cases inside : j < w
    · rw [if_pos (by omega), Nat.add_sub_cancel_left]
    · simp [inside]
  rw [← Int64.toInt_inj, toInt_element _ _ _ _ legal, written, decode_truncate legal fits]

theorem element_setElement_ne (m : Memory) {p w i j : Nat} {v : Int64} (legal : w ∈ Width.legal)
    (other : j ≠ i) : (m.setElement p w i v).element p w j = m.element p w j := by
  apply (sameBits_setElement m p w i v legal).element legal
  rcases Nat.lt_or_gt_of_ne other with before | after
  · have := Nat.mul_le_mul_right w (show j + 1 ≤ i from before)
    rw [Nat.succ_mul] at this
    omega
  · have := Nat.mul_le_mul_right w (show i + 1 ≤ j from after)
    rw [Nat.succ_mul] at this
    omega

theorem elements_setElement (m : Memory) {p w i n : Nat} {v : Int64} (legal : w ∈ Width.legal)
    (fits : Width.fits w v = true) (inside : i < n) :
    (m.setElement p w i v).elements p w n = (m.elements p w n).set i v := by
  apply elements_eq (by simp)
  intro j inside'
  rw [List.getElem?_set]
  by_cases same : i = j
  · subst same
    simp [inside, element_setElement_same m legal fits]
  · simp [same, inside', element_setElement_ne m legal (Ne.symm same)]

/-! ### Widening -/

theorem widen_correct (m : Memory) {p w w' : Nat} (legal : w ∈ Width.legal)
    (legal' : w' ∈ Width.legal) (wider : w ≤ w') (n : Nat) :
    SameBits m (m.widen p w w' n) (8 * p) (n * w') ∧
      ∀ i, i < n → (m.widen p w w' n).element p w' i = m.element p w i := by
  induction n generalizing m with
  | zero => exact ⟨SameBits.refl _ _ _, fun i inside => by omega⟩
  | succ n ih =>
      rw [widen, Nat.succ_mul n w']
      have written := sameBits_setElement m p w' n (m.element p w n) legal'
      obtain ⟨outside, kept⟩ := ih (m.setElement p w' n (m.element p w n))
      refine ⟨(written.mono (by omega) (by omega)).trans (outside.mono (by omega) (by omega)), ?_⟩
      intro i inside
      by_cases last : i = n
      · subst last
        rw [outside.element legal' (by omega)]
        exact element_setElement_same m legal'
          (Width.fits_mono legal legal' wider (fits_element m p w i legal))
      · rw [kept i (by omega)]
        -- element `i` at width `w` ends before element `n` at width `w'` starts
        have ends := Nat.mul_le_mul (show i + 1 ≤ n by omega) wider
        rw [Nat.succ_mul i w] at ends
        exact written.element legal (by omega)

theorem elements_widen (m : Memory) {p w w' : Nat} (legal : w ∈ Width.legal)
    (legal' : w' ∈ Width.legal) (wider : w ≤ w') (n : Nat) :
    (m.widen p w w' n).elements p w' n = m.elements p w n := by
  apply elements_eq (by simp)
  intro i inside
  rw [getElem?_elements, if_pos inside, (widen_correct m legal legal' wider n).2 i inside]

/-! ### Moving -/

theorem shiftUp_correct (m : Memory) {p w w' : Nat} (legal : w ∈ Width.legal)
    (legal' : w' ∈ Width.legal) (wider : w ≤ w') (i n : Nat) :
    SameBits m (m.shiftUp p w w' i n) (8 * p + (i + 1) * w') (n * w') ∧
      ∀ k, k < n → (m.shiftUp p w w' i n).element p w' (i + k + 1) = m.element p w (i + k) := by
  induction n generalizing m with
  | zero => exact ⟨SameBits.refl _ _ _, fun k inside => by omega⟩
  | succ n ih =>
      rw [shiftUp, Nat.succ_mul n w']
      have place : (i + n + 1) * w' = (i + 1) * w' + n * w' := by
        rw [← Nat.add_mul]
        congr 1
        omega
      have written := sameBits_setElement m p w' (i + n + 1) (m.element p w (i + n)) legal'
      obtain ⟨outside, kept⟩ := ih (m.setElement p w' (i + n + 1) (m.element p w (i + n)))
      refine ⟨(written.mono (by omega) (by omega)).trans (outside.mono (by omega) (by omega)), ?_⟩
      intro k inside
      by_cases last : k = n
      · subst last
        rw [outside.element legal' (by omega)]
        exact element_setElement_same m legal'
          (Width.fits_mono legal legal' wider (fits_element m p w (i + k) legal))
      · rw [kept k (by omega)]
        have ends := Nat.mul_le_mul (show i + k + 1 ≤ i + n + 1 by omega) wider
        rw [Nat.succ_mul (i + k) w] at ends
        exact written.element legal (by omega)

theorem shiftDown_correct (m : Memory) {p w : Nat} (legal : w ∈ Width.legal) (source target n : Nat)
    (down : target ≤ source) :
    SameBits m (m.shiftDown p w source target n) (8 * p + target * w) (n * w) ∧
      ∀ k, k < n →
        (m.shiftDown p w source target n).element p w (target + k) =
          m.element p w (source + k) := by
  induction n generalizing m source target with
  | zero => exact ⟨SameBits.refl _ _ _, fun k inside => by omega⟩
  | succ n ih =>
      rw [shiftDown, Nat.succ_mul n w]
      have written := sameBits_setElement m p w target (m.element p w source) legal
      obtain ⟨outside, kept⟩ :=
        ih (m.setElement p w target (m.element p w source)) (source + 1) (target + 1) (by omega)
      rw [Nat.succ_mul target w] at outside
      refine ⟨(written.mono (by omega) (by omega)).trans (outside.mono (by omega) (by omega)), ?_⟩
      intro k inside
      cases k with
      | zero =>
          simp only [Nat.add_zero]
          rw [outside.element legal (by omega)]
          exact element_setElement_same m legal (fits_element m p w source legal)
      | succ k =>
          have later : target + (k + 1) = target + 1 + k := by omega
          have later' : source + (k + 1) = source + 1 + k := by omega
          rw [later, kept k (by omega), later']
          exact element_setElement_ne m legal (by omega)

theorem bit_move (m : Memory) (source target n b : Nat) :
    (m.move source target n).bit b =
      if 8 * target ≤ b ∧ b < 8 * target + 8 * n then m.bit (8 * source + (b - 8 * target))
      else m.bit b := by
  rw [bit, get_move]
  by_cases inside : target ≤ b / 8 ∧ b / 8 < target + n
  · have byte : (8 * source + (b - 8 * target)) / 8 = source + (b / 8 - target) := by omega
    have place : (8 * source + (b - 8 * target)) % 8 = b % 8 := by omega
    rw [if_pos inside, if_pos (by omega), bit, byte, place]
  · rw [if_neg inside, if_neg (by omega), bit]

theorem move_correct (m : Memory) {p w : Nat} (legal : w ∈ Width.legal) (bytes : 8 ≤ w)
    (source target n : Nat) :
    SameBits m (m.move (p + source * (w / 8)) (p + target * (w / 8)) (n * (w / 8)))
        (8 * p + target * w) (n * w) ∧
      ∀ k, k < n →
        (m.move (p + source * (w / 8)) (p + target * (w / 8)) (n * (w / 8))).element p w
          (target + k) = m.element p w (source + k) := by
  have whole : 8 * (w / 8) = w := by
    rw [Width.mem_legal] at legal
    rcases legal with h | h | h | h | h | h | h | h <;> subst h <;> omega
  have scaled (a : Nat) : 8 * (a * (w / 8)) = a * w := by rw [Nat.mul_left_comm, whole]
  have from' := scaled source
  have to' := scaled target
  have count := scaled n
  constructor
  · intro b outside
    rw [bit_move]
    exact if_neg (by omega)
  · intro k inside
    apply element_congr legal
    intro j within
    have last := Nat.mul_le_mul_right w (show k + 1 ≤ n from inside)
    rw [Nat.succ_mul k w] at last
    rw [bit_move, Nat.add_mul, Nat.add_mul, if_pos (by omega)]
    congr 1
    omega

/-! ### Insertion and erasure -/

theorem elements_insert {m m' : Memory} {p w w' n i : Nat} {v : Int64} (within : i ≤ n)
    (before : ∀ j, j < i → m'.element p w' j = m.element p w j)
    (here : m'.element p w' i = v)
    (after : ∀ j, i ≤ j → j < n → m'.element p w' (j + 1) = m.element p w j) :
    m'.elements p w' (n + 1) = (m.elements p w n).insertIdx i v := by
  apply elements_eq
  · rw [List.length_insertIdx_of_le_length (by simpa using within), length_elements]
  · intro j inside
    rw [List.getElem?_insertIdx]
    by_cases low : j < i
    · rw [if_pos low, getElem?_elements, if_pos (by omega), before j low]
    · rw [if_neg low]
      by_cases same : j = i
      · subst same
        simp [within, here]
      · obtain ⟨k, rfl⟩ : ∃ k, j = k + 1 := ⟨j - 1, by omega⟩
        rw [if_neg same, Nat.add_sub_cancel, getElem?_elements, if_pos (by omega),
          after k (by omega) (by omega)]

theorem insertElement_correct (m : Memory) {p w w' n i : Nat} {v : Int64} (legal : w ∈ Width.legal)
    (legal' : w' ∈ Width.legal) (wider : w ≤ w') (fits : Width.fits w' v = true) (within : i ≤ n) :
    SameBits m (Node.insertElement m p w w' n i v) (8 * p) ((n + 1) * w') ∧
      (Node.insertElement m p w w' n i v).elements p w' (n + 1) =
        (m.elements p w n).insertIdx i v := by
  have upTo : (i + 1) * w' ≤ (n + 1) * w' := Nat.mul_le_mul_right w' (Nat.succ_le_succ within)
  have split : (n + 1) * w' = (i + 1) * w' + (n - i) * w' := by
    rw [← Nat.add_mul]
    congr 1
    omega
  have first : (i + 1) * w' = i * w' + w' := Nat.succ_mul i w'
  rw [Node.insertElement]
  by_cases shifts : w ≠ w' ∨ w' < 8
  · rw [if_pos shifts]
    obtain ⟨up, moved⟩ := shiftUp_correct m (p := p) legal legal' wider i (n - i)
    generalize m.shiftUp p w w' i (n - i) = m₁ at up moved
    have written := sameBits_setElement m₁ p w' i v legal'
    have here := element_setElement_same m₁ (p := p) (i := i) legal' fits
    have others {j : Nat} (other : j ≠ i) := element_setElement_ne m₁ (p := p) (v := v) legal' other
    dsimp only
    generalize m₁.setElement p w' i v = m₂ at written here others
    have after (j : Nat) (low : i ≤ j) (high : j < n) :
        m₂.element p w' (j + 1) = m.element p w j := by
      obtain ⟨k, rfl⟩ : ∃ k, j = i + k := ⟨j - i, by omega⟩
      rw [others (by omega), moved k (by omega)]
    -- elements in front of place `i` still lie where they were
    have front (j : Nat) (low : j < i) : m₂.element p w j = m.element p w j := by
      have ends := Nat.mul_le_mul (show j + 1 ≤ i from low) wider
      rw [Nat.succ_mul j w] at ends
      rw [written.element legal (by omega), up.element legal (by omega)]
    have outside : SameBits m m₂ (8 * p) ((n + 1) * w') :=
      (up.mono (by omega) (by omega)).trans (written.mono (by omega) (by omega))
    by_cases same : w = w'
    · subst same
      rw [if_neg (by simp)]
      exact ⟨outside, elements_insert within front here after⟩
    · rw [if_pos same]
      obtain ⟨low, widened⟩ := widen_correct m₂ (p := p) legal legal' wider i
      refine ⟨outside.trans (low.mono (by omega) (by omega)), elements_insert within ?_ ?_ ?_⟩
      · intro j before
        rw [widened j before, front j before]
      · rw [low.element legal' (by omega), here]
      · intro j begins ends
        have place := Nat.mul_le_mul_right w' (show i + 1 ≤ j + 1 by omega)
        rw [low.element legal' (by omega), after j begins ends]
  · rw [if_neg shifts]
    rw [not_or, Decidable.not_not] at shifts
    obtain ⟨rfl, wide⟩ := shifts
    have moves : ∃ m₁, (if i = n then m
          else m.move (p + i * (w / 8)) (p + (i + 1) * (w / 8)) ((n - i) * (w / 8))) = m₁ ∧
        SameBits m m₁ (8 * p + (i + 1) * w) ((n - i) * w) ∧
        ∀ k, k < n - i → m₁.element p w (i + 1 + k) = m.element p w (i + k) := by
      refine ⟨_, rfl, ?_⟩
      by_cases last : i = n
      · rw [if_pos last]
        exact ⟨SameBits.refl _ _ _, fun k inside => by omega⟩
      · rw [if_neg last]
        exact move_correct m legal (by omega) i (i + 1) (n - i)
    obtain ⟨m₁, result, up, moved⟩ := moves
    dsimp only
    rw [result]
    have written := sameBits_setElement m₁ p w i v legal
    refine ⟨(up.mono (by omega) (by omega)).trans (written.mono (by omega) (by omega)),
      elements_insert within ?_ (element_setElement_same m₁ legal fits) ?_⟩
    · intro j before
      have ends := Nat.mul_le_mul_right w (show j + 1 ≤ i from before)
      rw [Nat.succ_mul j w] at ends
      rw [written.element legal (by omega), up.element legal (by omega)]
    · intro j low high
      obtain ⟨k, rfl⟩ : ∃ k, j = i + k := ⟨j - i, by omega⟩
      have later : i + k + 1 = i + 1 + k := by omega
      rw [element_setElement_ne m₁ legal (by omega), later, moved k (by omega)]

theorem eraseElements_correct (m : Memory) {p w n start stop : Nat} (legal : w ∈ Width.legal)
    (ordered : start ≤ stop) (within : stop ≤ n) :
    SameBits m (Node.eraseElements m p w n start stop) (8 * p) (n * w) ∧
      (Node.eraseElements m p w n start stop).elements p w (n - (stop - start)) =
        (m.elements p w n).take start ++ (m.elements p w n).drop stop := by
  have moves : ∃ m', Node.eraseElements m p w n start stop = m' ∧
      SameBits m m' (8 * p + start * w) ((n - stop) * w) ∧
      ∀ k, k < n - stop → m'.element p w (start + k) = m.element p w (stop + k) := by
    refine ⟨_, rfl, ?_⟩
    rw [Node.eraseElements]
    by_cases narrow : w < 8
    · rw [if_pos narrow]
      exact shiftDown_correct m legal stop start (n - stop) ordered
    · rw [if_neg narrow]
      exact move_correct m legal (by omega) stop start (n - stop)
  obtain ⟨m', result, kept, moved⟩ := moves
  have upTo := Nat.mul_le_mul_right w (show start + (n - stop) ≤ n by omega)
  rw [Nat.add_mul] at upTo
  rw [result]
  refine ⟨kept.mono (by omega) (by omega), elements_eq ?_ ?_⟩
  · simp
    omega
  · intro j inside
    by_cases low : j < start
    · have ends := Nat.mul_le_mul_right w (show j + 1 ≤ start from low)
      rw [Nat.succ_mul j w] at ends
      rw [List.getElem?_append_left (by simp; omega), List.getElem?_take, if_pos low,
        getElem?_elements, if_pos (by omega), kept.element legal (by omega)]
    · obtain ⟨k, rfl⟩ : ∃ k, j = start + k := ⟨j - start, by omega⟩
      have length : ((m.elements p w n).take start).length = start := by
        simp
        omega
      rw [List.getElem?_append_right (by omega), length, Nat.add_sub_cancel_left,
        List.getElem?_drop, getElem?_elements, if_pos (by omega), moved k (by omega)]

end ColumnStore.Memory
