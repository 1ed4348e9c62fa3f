import ColumnStore.Proofs.Bits
import ColumnStore.Proofs.Memory
import ColumnStore.Store.Basic
import Mathlib.Data.List.GetD

set_option autoImplicit false

/-!
What is read from a framed image: the header, the nodes and the footer are found where they were
put, so an image whose root is one of its nodes is accepted.
-/
namespace ColumnStore

namespace Memory

theorem get_append (a b : ByteArray) (i : Nat) :
    get ⟨a ++ b⟩ i = if i < a.size then get ⟨a⟩ i else get ⟨b⟩ (i - a.size) := by
  rw [get_eq_getD, get_eq_getD, get_eq_getD]
  simp only [ByteArray.data_append, Array.getElem?_append, ByteArray.size_data]
  split <;> rfl

theorem get_of_size_le {m : Memory} {i : Nat} (beyond : m.bytes.size ≤ i) : m.get i = 0 := by
  rw [get, dif_neg (Nat.not_lt_of_le beyond)]

theorem get_toArray (l : List UInt8) (i : Nat) : get ⟨⟨l.toArray⟩⟩ i = l.getD i 0 := by
  rw [get_eq_getD, List.getElem?_toArray, List.getD_eq_getElem?_getD]

end Memory

namespace Image

open Memory (get_append get_of_size_le get_toArray)

/-! ### Words -/

@[simp] theorem length_littleEndian (n : Nat) (w : UInt64) : (littleEndian n w).length = n := by
  induction n generalizing w with
  | zero => rfl
  | succ n ih => simp [littleEndian, ih]

theorem toNat_littleEndian (n : Nat) (w : UInt64) {i : Nat} (inside : i < n) :
    ((littleEndian n w).getD i 0).toNat = w.toNat >>> (8 * i) % 2 ^ 8 := by
  induction n generalizing w i with
  | zero => cases inside
  | succ n ih =>
      cases i with
      | zero => exact UInt64.toNat_toUInt8 w
      | succ i =>
          have shifted : (w >>> 8).toNat = w.toNat >>> 8 := UInt64.toNat_shiftRight w 8
          rw [littleEndian, List.getD_cons_succ, ih (w >>> 8) (Nat.lt_of_succ_lt_succ inside), shifted,
            ← Nat.shiftRight_add]
          congr 2
          omega

theorem word_littleEndian {m : Memory} {p : Nat} {w : UInt64}
    (same : ∀ i, i < 8 → m.get (p + i) = (littleEndian 8 w).getD i 0) : m.word p = w := by
  rw [← UInt64.toNat_inj, Memory.toNat_word]
  apply Nat.eq_of_testBit_eq
  intro j
  rw [Memory.testBit_field]
  by_cases inside : j < 64
  · have byte : (8 * p + j) / 8 = p + j / 8 := by omega
    have place : (8 * p + j) % 8 = j % 8 := by omega
    have whole : 8 * (j / 8) + j % 8 = j := Nat.div_add_mod j 8
    rw [Memory.bit, byte, place, same _ (by omega), toNat_littleEndian 8 w (by omega),
      Nat.testBit_mod_two_pow, Nat.testBit_shiftRight, whole]
    simp [inside, Nat.mod_lt j (show 8 > 0 by decide)]
  · have high : 2 ^ 64 ≤ 2 ^ j := Nat.pow_le_pow_right (by decide) (Nat.le_of_not_lt inside)
    rw [Nat.testBit_lt_two_pow (Nat.lt_of_lt_of_le w.toNat_lt high)]
    simp [inside]

/-- Four bytes of a checksum and four zeros are the checksum as a word. -/
theorem littleEndian_four (c : UInt32) :
    littleEndian 4 c.toUInt64 ++ [0, 0, 0, 0] = littleEndian 8 c.toUInt64 := by
  have small : c.toUInt64.toNat < 2 ^ 32 := by simpa using c.toNat_lt
  have zero (i : Nat) (high : 4 ≤ i) : c.toUInt64.toNat >>> (8 * i) = 0 := by
    rw [Nat.shiftRight_eq_div_pow]
    apply Nat.div_eq_of_lt
    exact Nat.lt_of_lt_of_le small (Nat.pow_le_pow_right (by decide) (by omega))
  apply List.ext_getElem (by simp)
  intro i _ inside
  rw [length_littleEndian] at inside
  rw [List.getElem_eq_getD 0, List.getElem_eq_getD 0, ← UInt8.toNat_inj,
    toNat_littleEndian 8 _ inside]
  by_cases low : i < 4
  · rw [List.getD_append _ _ _ _ (by simpa using low), toNat_littleEndian 4 _ low]
  · rw [List.getD_append_right _ _ _ _ (by simp; omega), length_littleEndian, zero i (by omega)]
    have last : i = 4 ∨ i = 5 ∨ i = 6 ∨ i = 7 := by omega
    rcases last with rfl | rfl | rfl | rfl <;> rfl

/-! ### Header and footer -/

@[simp] theorem size_encodeHeader (h : Header) : h.encode.size = frameSize := by
  simp [Header.encode, ByteArray.size, mnemonic, frameSize]

@[simp] theorem size_encodeFooter (f : Footer) : f.encode.size = frameSize := by
  simp [Footer.encode, ByteArray.size, frameSize]

theorem root_ofRoot {root : Ref} (bound : root < 2 ^ 64) : (Header.ofRoot root).root = root := by
  have current : (Header.ofRoot root).select &&& 1 = 0 := by simp [Header.ofRoot]
  rw [Header.root, if_pos current]
  exact UInt64.toNat_ofNat_of_lt' bound

theorem decode_header {buf : ByteArray} {h : Header} (whole : frameSize ≤ buf.size)
    (same : ∀ i, i < frameSize → byte buf i = Memory.get ⟨h.encode⟩ i) :
    Header.decode buf = .ok h := by
  rw [frameSize] at same
  have bytes (i : Nat) (inside : i < 24) : byte buf i =
      (littleEndian 8 h.root₀ ++ (littleEndian 8 h.root₁ ++ (mnemonic ++
        [version.1, version.2, h.reserved, h.select]))).getD i 0 := by
    rw [same i inside, Header.encode, get_toArray, List.append_assoc, List.append_assoc]
  have tail (i : Nat) (inside : i < 8) : byte buf (16 + i) =
      (mnemonic ++ [version.1, version.2, h.reserved, h.select]).getD i 0 := by
    rw [bytes _ (by omega), List.getD_append_right _ _ _ _ (by simp; omega),
      List.getD_append_right _ _ _ _ (by simp; omega), length_littleEndian, length_littleEndian]
    congr 1
    omega
  have first : word buf 0 = h.root₀ := by
    apply word_littleEndian
    intro i inside
    rw [← List.getD_append _ _ _ _ (by simpa using inside), ← bytes _ (by omega), Nat.zero_add]
    rfl
  have second : word buf 8 = h.root₁ := by
    apply word_littleEndian
    intro i inside
    refine (bytes (8 + i) (by omega)).trans ?_
    rw [List.getD_append_right _ _ _ _ (by simp), length_littleEndian, Nat.add_sub_cancel_left,
      List.getD_append _ _ _ _ (by simpa using inside)]
  have found : [byte buf 16, byte buf 17, byte buf 18, byte buf 19] = mnemonic := by
    rw [show byte buf 16 = _ from tail 0 (by decide), show byte buf 17 = _ from tail 1 (by decide),
      show byte buf 18 = _ from tail 2 (by decide), show byte buf 19 = _ from tail 3 (by decide)]
    rfl
  have major : (byte buf 20, byte buf 21) = version := by
    rw [show byte buf 20 = _ from tail 4 (by decide), show byte buf 21 = _ from tail 5 (by decide)]
    rfl
  have last : byte buf 22 = h.reserved ∧ byte buf 23 = h.select :=
    ⟨tail 6 (by decide), tail 7 (by decide)⟩
  simp only [Header.decode, Nat.not_lt_of_le whole, found, major, first, second, last, ne_eq,
    not_true_eq_false, if_false]
  rfl

theorem decode_footer (f : Footer) : Footer.decode f.encode = .ok f := by
  have bytes (i : Nat) : Memory.get ⟨f.encode⟩ i =
      (littleEndian 8 f.root ++ (littleEndian 8 f.checksum.toUInt64 ++
        littleEndian 8 cookie)).getD i 0 := by
    rw [Footer.encode, get_toArray, List.append_assoc (littleEndian 8 f.root), littleEndian_four,
      List.append_assoc]
  have root : word f.encode 0 = f.root := by
    apply word_littleEndian
    intro i inside
    rw [bytes, Nat.zero_add, List.getD_append _ _ _ _ (by simpa using inside)]
  have sum : word f.encode 8 = f.checksum.toUInt64 := by
    apply word_littleEndian
    intro i inside
    rw [bytes, List.getD_append_right _ _ _ _ (by simp), length_littleEndian,
      Nat.add_sub_cancel_left, List.getD_append _ _ _ _ (by simpa using inside)]
  have end_ : word f.encode 16 = cookie := by
    apply word_littleEndian
    intro i inside
    rw [bytes, List.getD_append_right _ _ _ _ (by simp; omega), length_littleEndian,
      List.getD_append_right _ _ _ _ (by simp; omega), length_littleEndian]
    congr 1
    omega
  simp only [Footer.decode, size_encodeFooter, Nat.lt_irrefl, if_false, end_, root, sum, ne_eq,
    not_true_eq_false, UInt32.toUInt32_toUInt64]
  rfl

/-! ### The whole image -/

variable (nodes : ByteArray) (root : Ref)

@[simp] theorem size_frame : (frame nodes root).size = nodes.size + 2 * frameSize := by
  simp [frame]
  omega

theorem extract_footer :
    (frame nodes root).extract ((frame nodes root).size - frameSize) (frame nodes root).size =
      (Footer.ofNodes root nodes).encode := by
  rw [size_frame, frame]
  apply ByteArray.extract_append_eq_right <;> simp <;> omega

theorem nodes_frame : Image.nodes (frame nodes root) = nodes := by
  have stop : nodes.size + 2 * frameSize - frameSize - frameSize = nodes.size := by omega
  have none : (Header.ofRoot root).encode.extract frameSize
      (nodes.size + 2 * frameSize - frameSize) = .empty := by
    rw [ByteArray.extract_eq_empty_iff, size_encodeHeader]
    omega
  rw [Image.nodes, size_frame, frame, ByteArray.append_assoc, ByteArray.extract_append, none,
    size_encodeHeader, Nat.sub_self, stop, ByteArray.extract_append_eq_left rfl]
  simp

/-- Byte `i` of the nodes lies behind the header. -/
theorem get_frame {i : Nat} (inside : i < nodes.size) :
    Memory.get ⟨frame nodes root⟩ (frameSize + i) = Memory.get ⟨nodes⟩ i := by
  rw [frame, get_append, get_append, if_pos (by simpa using inside), if_neg (by simp)]
  simp

variable {nodes root}

/-- An image is accepted if its root is a place among its nodes. -/
theorem root_ofNodes (nodes : ByteArray) (bound : root < 2 ^ 64) :
    (Footer.ofNodes root nodes).root.toNat = root :=
  UInt64.toNat_ofNat_of_lt' bound

theorem validate_frame (whole : 8 ∣ nodes.size) (bound : root < 2 ^ 64)
    (inRange : rootInRange root (nodes.size + 2 * frameSize) = true) :
    validate (frame nodes root) = .ok root := by
  have size := size_frame nodes root
  have header : Header.decode (frame nodes root) = .ok (.ofRoot root) := by
    apply decode_header (by omega)
    intro i inside
    rw [byte, frame, ByteArray.append_assoc, get_append, if_pos (by simpa using inside)]
  have footer := decode_footer (Footer.ofNodes root nodes)
  rw [← extract_footer] at footer
  have long : ¬ ((frame nodes root).size < 2 * frameSize ∨ (frame nodes root).size % 8 ≠ 0) := by
    simp only [frameSize] at size ⊢
    omega
  simp only [validate, if_neg long, header, footer, nodes_frame]
  have checksum : (Footer.ofNodes root nodes).checksum = checksum nodes := rfl
  simp [Except.mapError, root_ofRoot bound, root_ofNodes nodes bound, checksum, inRange, size,
    Except.bind, bind, pure, Except.pure]

end Image

namespace Store

theorem ofImage_frame {nodes : ByteArray} {root : Ref} (settings : StoreSettings)
    (whole : 8 ∣ nodes.size) (bound : root < 2 ^ 64)
    (inRange : Image.rootInRange root (nodes.size + 2 * Image.frameSize) = true) :
    ofImage settings (Image.frame nodes root) = .ok
      ({ empty settings with
          attached := true
          baseline := (Image.frame nodes root).size
          memory := ⟨Image.frame nodes root⟩ }, root) := by
  rw [ofImage, Image.validate_frame whole bound inRange]
  rfl

end Store

end ColumnStore
