import ColumnStore.Proofs.Frame
import Mathlib.Data.List.Basic

set_option autoImplicit false

/-!
Damaged images. The footer has the checksum of the nodes, and header and footer both have the root.
A changed byte lies in the footer or in front of it, and what the other side has stays right: the
image is rejected, or its root and its nodes are the ones it was framed with.
-/
namespace ColumnStore.Image

/-! ### Checksums -/

theorem shiftBit_injective : Function.Injective shiftBit := by
  intro a b same
  have half (r : UInt32) : (r >>> 1).toNat = r.toNat / 2 := by
    rw [UInt32.toNat_shiftRight]
    exact Nat.shiftRight_eq_div_pow ..
  have low (r : UInt32) : r &&& 1 = 0 ↔ r.toNat % 2 = 0 := by
    rw [← UInt32.toNat_inj, UInt32.toNat_and]
    exact Nat.and_one_is_mod r.toNat ▸ Iff.rfl
  -- A half has a clear high bit, and the polynomial sets it.
  have apart (a b : UInt32) : a >>> 1 ≠ b >>> 1 ^^^ polynomial := by
    intro equal
    have clear (r : UInt32) : (r >>> 1).toNat.testBit 31 = false := by
      have := r.toNat_lt
      rw [half]
      exact Nat.testBit_lt_two_pow (by omega)
    have set : polynomial.toNat.testBit 31 = true := by decide
    have top := clear a
    rw [equal, UInt32.toNat_xor, Nat.testBit_xor, clear, set] at top
    cases top
  have halves (equal : a >>> 1 = b >>> 1) : a.toNat / 2 = b.toNat / 2 := by
    rw [← half, ← half, equal]
  rw [shiftBit, shiftBit] at same
  rw [← UInt32.toNat_inj]
  by_cases evenA : a &&& 1 = 0 <;> by_cases evenB : b &&& 1 = 0
  · rw [if_pos evenA, if_pos evenB] at same
    have := halves same
    rw [low] at evenA evenB
    omega
  · rw [if_pos evenA, if_neg evenB] at same
    exact absurd same (apart a b)
  · rw [if_neg evenA, if_pos evenB] at same
    exact absurd same.symm (apart b a)
  · rw [if_neg evenA, if_neg evenB, UInt32.xor_left_inj] at same
    have := halves same
    rw [low] at evenA evenB
    omega

theorem shiftBits_injective (n : Nat) : Function.Injective (shiftBits n) := by
  induction n with
  | zero => exact fun _ _ same => same
  | succ n ih => exact ih.comp shiftBit_injective

theorem feed_injective (b : UInt8) : Function.Injective (feed · b) := fun _ _ same =>
  (UInt32.xor_left_inj _).mp (shiftBits_injective 8 same)

theorem feed_byte_injective (r : UInt32) : Function.Injective (feed r) := by
  intro b c same
  have words := (UInt32.xor_right_inj r).mp (shiftBits_injective 8 same)
  rw [← UInt8.toNat_inj, ← UInt8.toNat_toUInt32, ← UInt8.toNat_toUInt32, words]

theorem foldl_feed_injective (l : List UInt8) : Function.Injective fun r => l.foldl feed r := by
  induction l with
  | nil => exact fun _ _ same => same
  | cons b l ih => exact ih.comp (feed_injective b)

/-- Two lists that differ in one place at most do not differ if they leave the same remainder. -/
theorem eq_of_foldl_feed {l k : List UInt8} {i : Nat} {r : UInt32} (length : l.length = k.length)
    (same : ∀ j, j ≠ i → l[j]? = k[j]?) (equal : l.foldl feed r = k.foldl feed r) : l = k := by
  induction l generalizing k i r with
  | nil => exact (List.length_eq_zero_iff.mp length.symm).symm
  | cons b l ih =>
      obtain ⟨c, k, rfl⟩ := List.exists_cons_of_length_eq_add_one length.symm
      have tails : l.length = k.length := Nat.succ.inj length
      cases i with
      | zero =>
          -- Both remainders went through the same rest, so the first bytes are the same too.
          have rest : l = k := List.ext_getElem? fun j => same (j + 1) j.succ_ne_zero
          subst rest
          rw [feed_byte_injective r (foldl_feed_injective l equal)]
      | succ i =>
          obtain rfl : b = c := Option.some.inj (same 0 i.succ_ne_zero.symm)
          rw [ih tails (fun j (other : j ≠ i) => same (j + 1) (by omega)) equal]

/-- The loop over a byte array goes through the list of its bytes. -/
theorem foldl_loop (data : ByteArray) (n i : Nat) (r : UInt32) (whole : i + n = data.size) :
    (ByteArray.foldlM.loop (m := Id) (fun r b => pure (feed r b)) data data.size (Nat.le_refl _)
      n i r).run = (data.data.toList.drop i).foldl feed r := by
  induction n generalizing i r with
  | zero =>
      have done : data.data.toList.length ≤ i := by
        simp
        omega
      rw [List.drop_eq_nil_of_le done, ByteArray.foldlM.loop, dif_neg (by omega)]
      rfl
  | succ n ih =>
      have inside : i < data.data.toList.length := by
        simp
        omega
      rw [List.drop_eq_getElem_cons inside, List.foldl_cons, ← ih (i + 1) _ (by omega),
        ByteArray.foldlM.loop, dif_pos (by omega)]
      rfl

theorem checksum_eq (data : ByteArray) :
    checksum data = data.data.toList.foldl feed 0xFFFFFFFF ^^^ 0xFFFFFFFF := by
  rw [checksum, ByteArray.foldl, ByteArray.foldlM]
  simp only [Nat.le_refl, dite_true]
  rw [foldl_loop data _ 0 _ (by omega), List.drop_zero]

/-! ### Bytes and words -/

variable {a b : ByteArray}

theorem getElem?_congr (size : a.size = b.size) {i : Nat} (same : byte a i = byte b i) :
    a.data.toList[i]? = b.data.toList[i]? := by
  have same : a.data[i]?.getD 0 = b.data[i]?.getD 0 := by
    rwa [byte, byte, Memory.get_eq_getD, Memory.get_eq_getD] at same
  have size : a.data.size = b.data.size := size
  rw [Array.getElem?_toList, Array.getElem?_toList]
  by_cases inside : i < a.data.size
  · rw [Array.getElem?_eq_getElem inside, Array.getElem?_eq_getElem (size ▸ inside)] at same ⊢
    exact congrArg some same
  · rw [Array.getElem?_eq_none (by omega), Array.getElem?_eq_none (by omega)]

theorem eq_of_bytes (size : a.size = b.size) (same : ∀ i, byte a i = byte b i) : a = b :=
  ByteArray.ext (Array.toList_inj.mp (List.ext_getElem? fun i => getElem?_congr size (same i)))

/-- The checksum tells arrays of one size apart that differ in one byte. -/
theorem eq_of_checksum {i : Nat} (size : a.size = b.size)
    (same : ∀ j, j ≠ i → byte a j = byte b j) (equal : checksum a = checksum b) : a = b := by
  rw [checksum_eq, checksum_eq, UInt32.xor_left_inj] at equal
  exact ByteArray.ext (Array.toList_inj.mp
    (eq_of_foldl_feed size (fun j other => getElem?_congr size (same j other)) equal))

theorem word_congr {p q : Nat} (same : ∀ k, k < 8 → byte a (p + k) = byte b (q + k)) :
    word a p = word b q := by
  rw [word, word, Memory.word, Memory.word]
  refine List.foldr_ext _ _ _ fun k member w => ?_
  rw [show Memory.get ⟨a⟩ (p + k) = _ from same k (List.mem_range.mp member)]
  rfl

/-! ### Images that are accepted -/

section Results

variable {ε α β : Type} {x : Except ε α} {u v : α}

theorem refuse_eq_ok {bad : Prop} [Decidable bad] {e : ε} :
    (if bad then throw e else x) = .ok v ↔ ¬ bad ∧ x = .ok v := by
  by_cases bad : bad
  · rw [if_pos bad]
    exact ⟨nofun, fun sound => absurd bad sound.1⟩
  · rw [if_neg bad]
    exact (and_iff_right bad).symm

theorem throw_bind {e : ε} {f : α → Except ε β} : (throw e >>= f : Except ε β) = throw e := rfl

theorem pure_eq_ok : (pure u : Except ε α) = .ok v ↔ u = v := Except.ok.injEq u v ▸ Iff.rfl

theorem bind_eq_ok {f : α → Except ε β} {v : β} :
    (x >>= f) = .ok v ↔ ∃ u, x = .ok u ∧ f u = .ok v := by
  cases x with
  | error e => exact ⟨nofun, fun ⟨_, done, _⟩ => nomatch done⟩
  | ok u => exact ⟨fun next => ⟨u, rfl, next⟩, fun ⟨_, done, next⟩ => Except.ok.inj done ▸ next⟩

theorem mapError_eq_ok {x : Except Fault α} : x.mapError Fault.error = .ok v ↔ x = .ok v := by
  cases x with
  | error f => exact ⟨nofun, nofun⟩
  | ok u => rw [Except.mapError, Except.ok.injEq, Except.ok.injEq]

end Results

theorem Header.decode_eq_ok {h : Header} : Header.decode a = .ok h ↔ frameSize ≤ a.size ∧
    [byte a 16, byte a 17, byte a 18, byte a 19] = mnemonic ∧ (byte a 20, byte a 21) = version ∧
      ⟨word a 0, word a 8, byte a 22, byte a 23⟩ = h := by
  simp only [Header.decode, refuse_eq_ok, pure_eq_ok, not_not, Nat.not_lt]

theorem Footer.decode_eq_ok {f : Footer} : Footer.decode a = .ok f ↔
    frameSize ≤ a.size ∧ word a 16 = cookie ∧ ⟨word a 0, (word a 8).toUInt32⟩ = f := by
  simp only [Footer.decode, refuse_eq_ok, pure_eq_ok, not_not, Nat.not_lt]

/-- The header and the footer of an image agree with each other and with the nodes. -/
structure Intact (image : ByteArray) (root : Ref) : Prop where
  long : 2 * frameSize ≤ image.size
  whole : image.size % 8 = 0
  mnemonic : [byte image 16, byte image 17, byte image 18, byte image 19] = mnemonic
  version : (byte image 20, byte image 21) = version
  cookie : word image (image.size - frameSize + 16) = cookie
  checksum : checksum (nodes image) = (word image (image.size - frameSize + 8)).toUInt32
  current : (⟨word image 0, word image 8, byte image 22, byte image 23⟩ : Header).root = root
  last : (word image (image.size - frameSize)).toNat = root
  inRange : rootInRange root image.size = true

theorem decode_tail_eq_ok {image : ByteArray} {f : Footer} (long : frameSize ≤ image.size) :
    Footer.decode (image.extract (image.size - frameSize) image.size) = .ok f ↔
      word image (image.size - frameSize + 16) = cookie ∧
        ⟨word image (image.size - frameSize),
          (word image (image.size - frameSize + 8)).toUInt32⟩ = f := by
  have size : (image.extract (image.size - frameSize) image.size).size = frameSize := by
    rw [ByteArray.size_extract]
    omega
  have moved (p : Nat) (inside : p + 8 ≤ frameSize) :
      word (image.extract (image.size - frameSize) image.size) p =
        word image (image.size - frameSize + p) := by
    refine word_congr fun k small => ?_
    rw [byte, Memory.get_extract, if_pos (by omega), byte, Nat.add_assoc]
  rw [Footer.decode_eq_ok, size, moved 16 (by decide), moved 0 (by decide), moved 8 (by decide)]
  exact and_iff_right (Nat.le_refl _)

theorem validate_eq_ok {image : ByteArray} {root : Ref} :
    validate image = .ok root ↔ Intact image root := by
  have enough (long : 2 * frameSize ≤ image.size) : frameSize ≤ image.size :=
    Nat.le_trans (by decide) long
  simp only [validate, throw_bind, refuse_eq_ok, bind_eq_ok, mapError_eq_ok, pure_eq_ok,
    Header.decode_eq_ok, not_or, not_not, Nat.not_lt]
  constructor
  · -- Every check that was passed is one of the fields.
    rintro ⟨⟨long, whole⟩, _, ⟨-, mnemonic, version, rfl⟩, f, footer, checksum, agree, inRange, rfl⟩
    obtain ⟨cookie, rfl⟩ := (decode_tail_eq_ok (enough long)).mp footer
    exact ⟨long, whole, mnemonic, version, cookie, checksum, agree, rfl, by simpa using inRange⟩
  · intro intact
    have footer := (decode_tail_eq_ok (enough intact.long)).mpr ⟨intact.cookie, rfl⟩
    refine ⟨⟨intact.long, intact.whole⟩, _,
      ⟨enough intact.long, intact.mnemonic, intact.version, rfl⟩, _, footer, intact.checksum, ?_⟩
    rw [intact.last]
    exact ⟨intact.current, by simp [intact.inRange], rfl⟩

/-! ### Damage -/

variable {image damaged : ByteArray} {root root' : Ref} {i : Nat}

theorem byte_nodes (image : ByteArray) (i : Nat) : byte (nodes image) i =
    if frameSize + i < image.size - frameSize then byte image (frameSize + i) else 0 :=
  Memory.get_extract ..

theorem size_nodes (size : damaged.size = image.size) :
    (nodes damaged).size = (nodes image).size := by
  simp only [nodes, ByteArray.size_extract, size]

/-- Of two images that are accepted and differ in one byte, root and nodes are the same. -/
theorem intact_unique (sound : Intact image root) (accepted : Intact damaged root')
    (size : damaged.size = image.size) (same : ∀ j, j ≠ i → byte damaged j = byte image j) :
    root' = root ∧ nodes damaged = nodes image := by
  have long := sound.long
  have current := accepted.current
  have last := accepted.last
  have checked := accepted.checksum
  rw [frameSize] at long
  rw [size, frameSize] at last checked
  by_cases front : i < image.size - 24
  · -- The footer has stayed, and it tells the root and the checksum of the nodes.
    have footer (p : Nat) (inside : p + 8 ≤ 24) :
        word damaged (image.size - 24 + p) = word image (image.size - 24 + p) :=
      word_congr fun k small => same _ (by omega)
    rw [footer 8 (by decide), ← frameSize, ← sound.checksum] at checked
    rw [← Nat.add_zero (image.size - 24), footer 0 (by decide), Nat.add_zero, ← frameSize,
      sound.last] at last
    refine ⟨last.symm, eq_of_checksum (i := i - 24) (size_nodes size) (fun j other => ?_) checked⟩
    rw [byte_nodes, byte_nodes, size, frameSize, same (24 + j) (by omega)]
  · -- The header and the nodes have stayed.
    have header (p : Nat) (inside : p + 8 ≤ 24) : word damaged p = word image p :=
      word_congr fun k small => same _ (by omega)
    rw [header 0 (by decide), header 8 (by decide), same 22 (by omega), same 23 (by omega),
      sound.current] at current
    refine ⟨current.symm, eq_of_bytes (size_nodes size) fun j => ?_⟩
    rw [byte_nodes, byte_nodes, size, frameSize]
    split
    next inside => exact same _ (by omega)
    next => rfl

theorem byte_set (inside : i < image.size) (b : UInt8) {j : Nat} (other : j ≠ i) :
    byte (image.set i b inside) j = byte image j := by
  rw [byte, byte, Memory.get_eq_getD, Memory.get_eq_getD]
  exact congrArg (·.getD 0) (Array.getElem?_set_ne inside other.symm)

/-- A framed image is accepted with its root, a word. After a change of one byte it is rejected, or
accepted with the same root and the same nodes. -/
theorem validate_frame_damaged {nodes : ByteArray} (whole : 8 ∣ nodes.size) (bound : root < 2 ^ 64)
    (legal : root = 0 ∨ frameSize ≤ root ∧ root < frameSize + nodes.size ∧ 8 ∣ root) :
    validate (frame nodes root) = .ok root ∧
      ∀ (i : Nat) (inside : i < (frame nodes root).size) (b : UInt8),
        (∃ e, validate ((frame nodes root).set i b inside) = .error e) ∨
          validate ((frame nodes root).set i b inside) = .ok root ∧
            Image.nodes ((frame nodes root).set i b inside) = nodes := by
  have inRange : rootInRange root (nodes.size + 2 * frameSize) = true := by
    simp only [rootInRange, Bool.or_eq_true, Bool.and_eq_true, decide_eq_true_eq]
    refine legal.imp_right fun ⟨low, high, eighth⟩ => ⟨⟨low, ?_⟩, Nat.mod_eq_zero_of_dvd eighth⟩
    rwa [Nat.two_mul, ← Nat.add_assoc, Nat.add_sub_cancel, Nat.add_comm]
  have accepted := validate_frame whole bound inRange
  refine ⟨accepted, fun i inside b => ?_⟩
  -- Only where the damaged image is accepted as well is there something to show.
  cases result : validate ((frame nodes root).set i b inside) with
  | error e => exact .inl ⟨e, rfl⟩
  | ok root' =>
      obtain ⟨rfl, same⟩ := intact_unique (validate_eq_ok.mp accepted) (validate_eq_ok.mp result)
        (Array.size_set ..) fun j other => byte_set inside b other
      exact .inr ⟨rfl, same.trans (nodes_frame nodes root')⟩

/-- Sixteen bytes of nodes with the first of them as the root; the seventh is flipped. -/
theorem validate_frame_damaged_sixteen :
    let nodes : ByteArray := ⟨Array.replicate 16 1⟩
    8 ∣ nodes.size ∧ 24 < 2 ^ 64 ∧ (frameSize ≤ 24 ∧ 24 < frameSize + nodes.size ∧ 8 ∣ 24) ∧
      validate (frame nodes 24) = .ok 24 ∧
        ∃ e, validate ((frame nodes 24).set 30 0xFE (by decide +kernel)) = .error e := by
  intro nodes
  have whole : 8 ∣ nodes.size := by decide
  have legal : frameSize ≤ 24 ∧ 24 < frameSize + nodes.size ∧ 8 ∣ 24 := by decide
  obtain ⟨accepted, damaged⟩ := validate_frame_damaged whole (by decide) (.inr legal)
  refine ⟨whole, by decide, legal, accepted, ?_⟩
  refine (damaged 30 (by decide +kernel) 0xFE).resolve_right fun unnoticed => ?_
  exact absurd unnoticed.2 (by decide +kernel)

end ColumnStore.Image
