import ColumnStore.Text.Utf8
import Mathlib.Tactic.IntervalCases

set_option autoImplicit false

/-!
Text that is encoded is read back: the bytes of each character begin a character, go on within its
bounds and have its number. No other bytes are read as text.
-/
namespace ColumnStore.Text

open String (utf8EncodeChar)

variable {v k : Nat}

/-! ### First bytes -/

theorem following_one (h : v < 0x80) : following (UInt8.ofNat v) = some (0, 0, 0) := by
  have : UInt8.ofNat v < 0x80 := by
    rw [UInt8.lt_iff_toNat_lt, UInt8.toNat_ofNat']
    exact Nat.lt_of_le_of_lt (Nat.mod_le ..) h
  rw [following, if_pos this]

theorem following_two (lower : 0xC2 ≤ k) (upper : k < 0xE0) :
    following (UInt8.ofNat k) = some (1, 0x80, 0xBF) := by
  interval_cases k <;> rfl

theorem following_three (lower : 0xE0 ≤ k) (upper : k < 0xF0) :
    following (UInt8.ofNat k) = some (2, if k = 0xE0 then 0xA0 else 0x80,
      if k = 0xED then 0x9F else 0xBF) := by
  interval_cases k <;> rfl

theorem following_four (lower : 0xF0 ≤ k) (upper : k < 0xF5) :
    following (UInt8.ofNat k) = some (3, if k = 0xF0 then 0x90 else 0x80,
      if k = 0xF4 then 0x8F else 0xBF) := by
  interval_cases k <;> rfl

theorem leadBits_zero (small : k < 128) : leadBits (UInt8.ofNat k) 0 = k := by
  rw [leadBits, UInt8.toNat_ofNat', if_pos rfl]
  omega

theorem leadBits_succ (count : Nat) (small : k < 256) :
    leadBits (UInt8.ofNat k) (count + 1) = k % 2 ^ (5 - count) := by
  rw [leadBits, UInt8.toNat_ofNat', if_neg count.succ_ne_zero, Nat.mod_eq_of_lt small,
    Nat.one_shiftLeft, Nat.add_sub_add_right 5 1 count]

/-! ### Following bytes -/

theorem continueChar_ofNat {low high : UInt8} {value count : Nat} {r : List UInt8}
    (small : k < 256) (lower : low.toNat ≤ k) (upper : k ≤ high.toNat) :
    continueChar low high value (count + 1) (UInt8.ofNat k :: r) =
      continueChar 0x80 0xBF (value * 64 + k % 64) count r := by
  have same : (UInt8.ofNat k).toNat = k := by rw [UInt8.toNat_ofNat', Nat.mod_eq_of_lt small]
  have bounds : low ≤ UInt8.ofNat k ∧ UInt8.ofNat k ≤ high := by
    rw [UInt8.le_iff_toNat_le, UInt8.le_iff_toNat_le, same]
    exact ⟨lower, upper⟩
  rw [continueChar, if_pos bounds, same]

theorem continueChar_any {value count : Nat} {r : List UInt8} (x : Nat) :
    continueChar 0x80 0xBF value (count + 1) (UInt8.ofNat (x % 64 + 128) :: r) =
      continueChar 0x80 0xBF (value * 64 + x % 64) count r := by
  have small : x % 64 < 64 := Nat.mod_lt _ (by decide)
  rw [continueChar_ofNat (by omega) (by show 128 ≤ _; omega) (by show _ ≤ 191; omega)]
  congr 2
  omega

theorem continueChar_done {low high : UInt8} {c : Char} {r : List UInt8} (same : v = c.toNat) :
    continueChar low high v 0 r = some c :: decodeParts r := by
  rw [continueChar, same, Char.ofNat_toNat]

/-! ### Characters and texts -/

theorem decodeParts_utf8EncodeChar (c : Char) (r : List UInt8) :
    decodeParts (utf8EncodeChar c ++ r) = some c :: decodeParts r := by
  obtain ⟨v, same⟩ : ∃ v, v = c.toNat := ⟨_, rfl⟩
  have valid : v < 0xD800 ∨ 0xDFFF < v ∧ v < 0x110000 := same ▸ c.valid
  have encoded : c.val.toNat = v := same.symm
  simp only [utf8EncodeChar, encoded]
  split
  next one =>
    simp only [List.cons_append, List.nil_append]
    rw [decodeParts, following_one (by omega)]
    simp only
    rw [leadBits_zero (by omega), continueChar_done same]
  next =>
    split
    next two =>
      simp only [List.cons_append, List.nil_append]
      rw [decodeParts, following_two (by omega) (by omega)]
      simp only
      rw [leadBits_succ 0 (by omega), continueChar_any, continueChar_done]
      omega
    next =>
      split
      next three =>
        simp only [List.cons_append, List.nil_append]
        rw [decodeParts, following_three (by omega) (by omega)]
        simp only
        rw [leadBits_succ 1 (by omega), continueChar_ofNat, continueChar_any, continueChar_done]
        · omega
        · omega
        · split
          · show 160 ≤ _
            omega
          · show 128 ≤ _
            omega
        · split
          · show _ ≤ 159
            omega
          · show _ ≤ 191
            omega
      next =>
        simp only [List.cons_append, List.nil_append]
        rw [decodeParts, following_four (by omega) (by omega)]
        simp only
        rw [leadBits_succ 2 (by omega), continueChar_ofNat, continueChar_any, continueChar_any,
          continueChar_done]
        · omega
        · omega
        · split
          · show 144 ≤ _
            omega
          · show 128 ≤ _
            omega
        · split
          · show _ ≤ 143
            omega
          · show _ ≤ 191
            omega

theorem decodeParts_flatMap (l : List Char) :
    decodeParts (l.flatMap utf8EncodeChar) = l.map some := by
  induction l with
  | nil => rw [List.flatMap_nil, decodeParts, List.map_nil]
  | cons c l ih => rw [List.flatMap_cons, decodeParts_utf8EncodeChar, ih, List.map_cons]

theorem toList_loop (l : List UInt8) (i : Nat) (r : List UInt8) :
    ByteArray.toList.loop l.toByteArray i r = r.reverse ++ l.drop i := by
  induction rest : l.drop i generalizing i r with
  | nil =>
      have done : ¬i < l.toByteArray.size := by
        rw [List.size_toByteArray, Nat.not_lt]
        exact List.drop_eq_nil_iff.mp rest
      rw [ByteArray.toList.loop, if_neg done, List.append_nil]
  | cons b rest' ih =>
      have inside : i < l.length := by
        rw [← List.drop_eq_nil_iff.not.trans Nat.not_le, rest]
        exact List.cons_ne_nil b rest'
      have parts := rest
      rw [List.drop_eq_getElem_cons inside] at parts
      obtain ⟨rfl, tail⟩ := List.cons.inj parts
      have here : i < l.toByteArray.size := List.size_toByteArray.symm ▸ inside
      have read : l.toByteArray.get! i = l[i] := by
        rw [← List.getElem_toByteArray (h := here)]
        exact getElem!_pos l.toByteArray.data i here
      rw [ByteArray.toList.loop, if_pos here, read, ih (i + 1) _ tail]
      simp

theorem toList_toByteArray (l : List UInt8) : l.toByteArray.toList = l :=
  toList_loop l 0 []

theorem toList_encode (s : String) :
    (encode s).toList = s.toList.flatMap utf8EncodeChar := by
  have bytes : encode s = (s.toList.flatMap utf8EncodeChar).toByteArray := by
    rw [encode, String.toUTF8, ← List.utf8Encode, ← String.toByteArray_ofList, String.ofList_toList]
  rw [bytes, toList_toByteArray]

theorem decodeParts_encode (s : String) : decodeParts (encode s).toList = s.toList.map some := by
  rw [toList_encode, decodeParts_flatMap]

theorem mapM_id {parts : List (Option Char)} {cs : List Char} :
    parts.mapM id = some cs ↔ parts = cs.map some := by
  induction parts generalizing cs with
  | nil => cases cs <;> simp
  | cons part parts ih =>
      cases cs with
      | nil => simp [List.mapM_cons, Option.bind_eq_some_iff]
      | cons c cs => simp [List.mapM_cons, Option.bind_eq_some_iff, ih]

@[simp] theorem decode?_encode (s : String) : decode? (encode s) = some s.toList :=
  mapM_id.mpr (decodeParts_encode s)

@[simp] theorem decodeLossy_encode (s : String) : decodeLossy (encode s) = s := by
  rw [decodeLossy, decodeParts_encode, List.map_map]
  exact (congrArg String.ofList (List.map_id _)).trans (String.ofList_toList)

theorem bytes_beq {a b : ByteArray} : (a == b) = true ↔ a = b := by
  show (a.data == b.data) = true ↔ _
  rw [beq_iff_eq]
  exact ⟨ByteArray.ext, congrArg ByteArray.data⟩

theorem encode_beq (s t : String) : (encode s == encode t) = (s == t) := by
  have same : encode s = encode t ↔ s = t :=
    ⟨fun h => by rw [← decodeLossy_encode s, h, decodeLossy_encode], congrArg encode⟩
  rw [Bool.eq_iff_iff, bytes_beq, beq_iff_eq, same]

/-! ### Bytes that are text -/

section Bytes

variable {a b low high : UInt8} {value count : Nat} {r : List UInt8} {cs : List Char}

/-- No character is encoded in more bytes than it needs, and none is a surrogate or too large. -/
theorem following_some (begins : following a = some (count, low, high)) :
    (count = 0 ∧ a.toNat < 0x80) ∨
    (count = 1 ∧ 0xC2 ≤ a.toNat ∧ a.toNat < 0xE0 ∧ 0x80 ≤ low.toNat ∧ high.toNat ≤ 0xBF) ∨
    (count = 2 ∧ 0xE0 ≤ a.toNat ∧ a.toNat < 0xF0 ∧ 0x80 ≤ low.toNat ∧ high.toNat ≤ 0xBF ∧
      (a.toNat = 0xE0 → 0xA0 ≤ low.toNat) ∧ (a.toNat = 0xED → high.toNat ≤ 0x9F)) ∨
    (count = 3 ∧ 0xF0 ≤ a.toNat ∧ a.toNat < 0xF5 ∧ 0x80 ≤ low.toNat ∧ high.toNat ≤ 0xBF ∧
      (a.toNat = 0xF0 → 0x90 ≤ low.toNat) ∧ (a.toNat = 0xF4 → high.toNat ≤ 0x8F)) := by
  simp only [following, UInt8.lt_iff_toNat_lt, ← UInt8.toNat_inj] at begins
  split_ifs at begins <;> cases begins <;> simp_all
  omega

/-- The bytes of the character with a number. -/
theorem utf8EncodeChar_ofNat (valid : v < 0xD800 ∨ 0xDFFF < v ∧ v < 0x110000) :
    utf8EncodeChar (Char.ofNat v) =
      if v ≤ 0x7F then [UInt8.ofNat v]
      else if v ≤ 0x7FF then [UInt8.ofNat (v / 64 % 32 + 192), UInt8.ofNat (v % 64 + 128)]
      else if v ≤ 0xFFFF then
        [UInt8.ofNat (v / 4096 % 16 + 224), UInt8.ofNat (v / 64 % 64 + 128),
          UInt8.ofNat (v % 64 + 128)]
      else
        [UInt8.ofNat (v / 262144 % 8 + 240), UInt8.ofNat (v / 4096 % 64 + 128),
          UInt8.ofNat (v / 64 % 64 + 128), UInt8.ofNat (v % 64 + 128)] := by
  have number : (Char.ofNat v).val.toNat = v := by
    rw [Char.ofNat, dif_pos (show v.isValidChar from valid)]
    rfl
  simp only [utf8EncodeChar, number]

theorem continueChar_zero (all : continueChar low high value 0 r = cs.map some) :
    ∃ cs', cs = Char.ofNat value :: cs' ∧ decodeParts r = cs'.map some := by
  rw [continueChar] at all
  cases cs with
  | nil => cases all
  | cons c cs =>
      obtain ⟨same, rest⟩ := List.cons.inj all
      exact ⟨cs, congrArg (· :: cs) (Option.some.inj same).symm, rest⟩

theorem continueChar_succ (all : continueChar low high value (count + 1) r = cs.map some) :
    ∃ b r', r = b :: r' ∧ low.toNat ≤ b.toNat ∧ b.toNat ≤ high.toNat ∧
      continueChar 0x80 0xBF (value * 64 + b.toNat % 64) count r' = cs.map some := by
  have whole (l : List (Option Char)) : none :: l ≠ cs.map some := by
    cases cs <;> rintro ⟨⟩
  cases r with
  | nil =>
      rw [continueChar] at all
      exact absurd all (whole [])
  | cons b r =>
      rw [continueChar] at all
      split at all
      next here => exact ⟨b, r, rfl, here.1, here.2, all⟩
      next => exact absurd all (whole _)

theorem continueChar_tail (all : continueChar 0x80 0xBF value (count + 1) r = cs.map some) :
    ∃ b r', r = b :: r' ∧ 0x80 ≤ b.toNat ∧ b.toNat ≤ 0xBF ∧
      continueChar 0x80 0xBF (value * 64 + b.toNat % 64) count r' = cs.map some :=
  continueChar_succ all

/-- The first character of bytes that are text is encoded in the first of them. -/
theorem decodeParts_cons (all : decodeParts (a :: r) = cs.map some) :
    ∃ c cs' r', cs = c :: cs' ∧ a :: r = utf8EncodeChar c ++ r' ∧
      decodeParts r' = cs'.map some := by
  rw [decodeParts] at all
  split at all
  next => cases cs <;> cases all
  next count low high begins =>
    -- A byte is what its place in the encoding of the character says.
    have byte {k : Nat} {b : UInt8} (same : k = b.toNat) : UInt8.ofNat k = b := by
      rw [same, UInt8.ofNat_toNat]
    rcases following_some begins with ⟨rfl, one⟩ | ⟨rfl, two⟩ | ⟨rfl, three⟩ | ⟨rfl, four⟩
    · obtain ⟨cs, rfl, rest⟩ := continueChar_zero all
      refine ⟨_, cs, r, rfl, ?_, rest⟩
      rw [leadBits, if_pos rfl, utf8EncodeChar_ofNat (by omega), if_pos (by omega),
        byte (b := a) (by omega), List.singleton_append]
    · obtain ⟨b, r, rfl, lower, upper, all⟩ := continueChar_succ all
      obtain ⟨cs, rfl, rest⟩ := continueChar_zero all
      refine ⟨_, cs, r, rfl, ?_, rest⟩
      rw [leadBits, if_neg (by decide), show 1 <<< (6 - 1) = 32 from rfl,
        utf8EncodeChar_ofNat (by omega), if_neg (by omega), if_pos (by omega),
        byte (b := a) (by omega), byte (b := b) (by omega)]
      rfl
    · obtain ⟨b, r, rfl, lower, upper, all⟩ := continueChar_succ all
      obtain ⟨c, r, rfl, lower', upper', all⟩ := continueChar_tail all
      obtain ⟨cs, rfl, rest⟩ := continueChar_zero all
      refine ⟨_, cs, r, rfl, ?_, rest⟩
      rw [leadBits, if_neg (by decide), show 1 <<< (6 - 2) = 16 from rfl,
        utf8EncodeChar_ofNat (by omega), if_neg (by omega), if_neg (by omega), if_pos (by omega),
        byte (b := a) (by omega), byte (b := b) (by omega), byte (b := c) (by omega)]
      rfl
    · obtain ⟨b, r, rfl, lower, upper, all⟩ := continueChar_succ all
      obtain ⟨c, r, rfl, lower', upper', all⟩ := continueChar_tail all
      obtain ⟨d, r, rfl, lower'', upper'', all⟩ := continueChar_tail all
      obtain ⟨cs, rfl, rest⟩ := continueChar_zero all
      refine ⟨_, cs, r, rfl, ?_, rest⟩
      rw [leadBits, if_neg (by decide), show 1 <<< (6 - 3) = 8 from rfl,
        utf8EncodeChar_ofNat (by omega), if_neg (by omega), if_neg (by omega), if_neg (by omega),
        byte (b := a) (by omega), byte (b := b) (by omega), byte (b := c) (by omega),
        byte (b := d) (by omega)]
      rfl

theorem flatMap_of_decodeParts (all : decodeParts r = cs.map some) :
    cs.flatMap utf8EncodeChar = r := by
  induction cs generalizing r with
  | nil =>
      cases r with
      | nil => rfl
      | cons a r =>
          obtain ⟨_, _, _, ⟨⟩, -⟩ := decodeParts_cons all
  | cons c cs ih =>
      cases r with
      | nil =>
          rw [decodeParts] at all
          cases all
      | cons a r =>
          obtain ⟨_, _, r', ⟨⟩, bytes, rest⟩ := decodeParts_cons all
          rw [bytes, List.flatMap_cons, ih rest]

end Bytes

theorem toByteArray_toList (b : ByteArray) : b.toList.toByteArray = b := by
  have bytes : b.data.toList.toByteArray = b := ByteArray.ext (by rw [List.data_toByteArray])
  rw [← bytes, toList_toByteArray]

/-- Bytes that are text are the encoding of it. -/
theorem text_eq_some {b : ByteArray} {s : String} :
    (decode? b).map String.ofList = some s ↔ b = encode s := by
  constructor
  · intro decoded
    obtain ⟨cs, all, rfl⟩ := Option.map_eq_some_iff.mp decoded
    have bytes := flatMap_of_decodeParts (mapM_id.mp all)
    rw [← toByteArray_toList b, ← toByteArray_toList (encode _), toList_encode,
      String.toList_ofList, bytes]
  · rintro rfl
    rw [decode?_encode, Option.map_some, String.ofList_toList]

end ColumnStore.Text
