import ColumnStore.Proofs.Utf8
import ColumnStore.Query.Needle
import Mathlib.Data.List.Basic

set_option autoImplicit false

/-!
Tests that ignore case beside those that do not. A text within the bytes of another one lies between
two of its characters, so what the bytes show the characters show too. A character matches itself if
one of its two forms is the character, and of four letters neither is.
-/
namespace ColumnStore

/-! ### Parts of texts -/

namespace Text

variable {s t : List Char} {before after : List UInt8}

theorem decodeParts_append (s : List Char) (r : List UInt8) :
    decodeParts (s.flatMap String.utf8EncodeChar ++ r) = s.map some ++ decodeParts r := by
  induction s with
  | nil => rfl
  | cons c s ih =>
      rw [List.flatMap_cons, List.append_assoc, decodeParts_utf8EncodeChar, ih, List.map_cons,
        List.cons_append]

theorem prefix_of_bytes
    (same : s.flatMap String.utf8EncodeChar ++ after = t.flatMap String.utf8EncodeChar) :
    s <+: t := by
  -- Decoding goes from the front, so it gives `s` whatever comes behind.
  have parts := congrArg decodeParts same
  rw [decodeParts_append, decodeParts_flatMap] at parts
  obtain ⟨front, back, rfl, front_eq, -⟩ := List.map_eq_append_iff.mp parts.symm
  exact ⟨back, by rw [List.map_injective_iff.mpr (Option.some_injective Char) front_eq]⟩

/-- A text is cut between two characters where the byte behind the cut begins one. -/
theorem cut_of_bytes {b : UInt8} (first : b.IsUTF8FirstByte)
    (same : before ++ b :: after = t.flatMap String.utf8EncodeChar) :
    ∃ t₁ t₂, t = t₁ ++ t₂ ∧ b :: after = t₂.flatMap String.utf8EncodeChar := by
  induction t generalizing before with
  | nil => simp at same
  | cons c t ih =>
      -- The cut lies behind the first character, or within it.
      rw [List.flatMap_cons] at same
      rcases List.append_eq_append_iff.mp same.symm with ⟨rest, rfl, tail⟩ | ⟨rest, here, tail⟩
      · obtain ⟨t₁, t₂, rfl, bytes⟩ := ih tail.symm
        exact ⟨c :: t₁, t₂, rfl, bytes⟩
      · cases rest with
        | nil => exact ⟨[c], t, rfl, tail⟩
        | cons b' rest =>
            obtain ⟨rfl, rfl⟩ := List.cons.inj tail
            -- Only the first byte of a character is one that begins a character.
            have inside : before.length < (String.utf8EncodeChar c).length := by simp [here]
            have place : (String.utf8EncodeChar c)[before.length] = b := by simp [here]
            have front := UInt8.isUTF8FirstByte_getElem_utf8EncodeChar.mp (place ▸ first)
            obtain rfl := List.length_eq_zero_iff.mp front
            exact ⟨[], c :: t, rfl, by rw [List.flatMap_cons, here]; rfl⟩

theorem exists_firstByte (c : Char) (s : List Char) :
    ∃ b rest, (c :: s).flatMap String.utf8EncodeChar = b :: rest ∧ b.IsUTF8FirstByte := by
  have some : 0 < (String.utf8EncodeChar c).length := by
    rw [String.length_utf8EncodeChar]
    exact c.utf8Size_pos
  obtain ⟨b, rest, here⟩ := List.exists_cons_of_length_pos some
  refine ⟨b, rest ++ s.flatMap String.utf8EncodeChar, by rw [List.flatMap_cons, here]; rfl, ?_⟩
  have front : (String.utf8EncodeChar c)[0] = b := by simp [here]
  exact front ▸ UInt8.isUTF8FirstByte_getElem_utf8EncodeChar.mpr rfl

theorem infix_of_bytes
    (part : s.flatMap String.utf8EncodeChar <:+: t.flatMap String.utf8EncodeChar) : s <:+: t := by
  obtain ⟨before, after, same⟩ := part
  cases s with
  | nil => exact List.nil_infix
  | cons c s =>
      obtain ⟨b, rest, bytes, first⟩ := exists_firstByte c s
      rw [List.append_assoc, bytes, List.cons_append] at same
      obtain ⟨t₁, t₂, rfl, back⟩ := cut_of_bytes first same
      rw [← List.cons_append, ← bytes] at back
      exact (prefix_of_bytes back).isInfix.trans (List.suffix_append t₁ t₂).isInfix

theorem suffix_of_bytes
    (part : s.flatMap String.utf8EncodeChar <:+ t.flatMap String.utf8EncodeChar) : s <:+ t := by
  obtain ⟨before, same⟩ := part
  cases s with
  | nil => exact List.nil_suffix
  | cons c s =>
      obtain ⟨b, rest, bytes, first⟩ := exists_firstByte c s
      rw [bytes] at same
      obtain ⟨t₁, t₂, rfl, back⟩ := cut_of_bytes first same
      have texts := congrArg decodeParts (bytes.trans back)
      rw [decodeParts_flatMap, decodeParts_flatMap] at texts
      exact ⟨t₁, by rw [List.map_injective_iff.mpr (Option.some_injective Char) texts]⟩

/-! ### Forms of characters -/

/-- One of the two forms of the character is the character itself. -/
def Steady (c : Char) : Prop := toUpper c = c ∨ toLower c = c

/-- Single letters that stand for two, of which the first is a capital. -/
def titleCase : List Char := ['\u01C5', '\u01C8', '\u01CB', '\u01F2']

/-- A set of numbers as the bits of one, so that two large tables meet in a single conjunction. -/
def bitsOf (ns : List Nat) : Nat := ns.foldr (fun n bits => 1 <<< n ||| bits) 0

theorem testBit_bitsOf {ns : List Nat} {n : Nat} : (bitsOf ns).testBit n = true ↔ n ∈ ns := by
  induction ns with
  | nil => simp [bitsOf]
  | cons k ns ih =>
      have one : (1 <<< k).testBit n = decide (n = k) := by
        rw [Nat.one_shiftLeft, Nat.testBit_two_pow]
        exact decide_eq_decide.mpr eq_comm
      rw [bitsOf, List.foldr_cons, ← bitsOf, Nat.testBit_or, one, Bool.or_eq_true, ih,
        decide_eq_true_eq, List.mem_cons]

namespace CaseRange

variable {r : CaseRange} {ranges : List CaseRange} {c : Char} {n : Nat}

def members (r : CaseRange) : List Nat :=
  List.range' r.first ((r.last - r.first) / r.step + 1) r.step

def bits (ranges : List CaseRange) : Nat := ranges.foldr (fun r bits => bitsOf r.members ||| bits) 0

theorem mem_members (inside : r.contains n = true) : n ∈ r.members := by
  simp only [contains, Bool.and_eq_true, decide_eq_true_eq, beq_iff_eq] at inside
  have whole := Nat.div_add_mod (n - r.first) r.step
  have place := Nat.div_le_div_right (c := r.step) (Nat.sub_le_sub_right inside.1.2 r.first)
  exact List.mem_range'.mpr ⟨(n - r.first) / r.step, Nat.lt_succ_of_le place, by omega⟩

theorem testBit_bits (member : r ∈ ranges) (inside : r.contains n = true) :
    (bits ranges).testBit n = true := by
  induction member with
  | head =>
      have here := testBit_bitsOf.mpr (mem_members inside)
      rw [bits, List.foldr_cons, Nat.testBit_or, here, Bool.true_or]
  | tail _ _ ih => rw [bits, List.foldr_cons, ← bits, Nat.testBit_or, ih, Bool.or_true]

/-- A character that is mapped away from itself is in one of the ranges. -/
theorem testBit_of_map_ne (moved : map ranges c ≠ c) : (bits ranges).testBit c.toNat = true := by
  rw [map] at moved
  cases found : ranges.find? (·.contains c.toNat) with
  | none =>
      rw [found] at moved
      exact absurd rfl moved
  | some r =>
      have inside := List.find?_some found
      exact testBit_bits (List.mem_of_find?_eq_some found) inside

theorem bits_both : bits toUpper &&& bits toLower = bitsOf (titleCase.map Char.toNat) := by
  decide +kernel

end CaseRange

theorem steady_iff {c : Char} : Steady c ↔ c ∉ titleCase := by
  constructor
  · intro steady member
    have neither : titleCase.all fun c => toUpper c ≠ c ∧ toLower c ≠ c := by decide +kernel
    obtain ⟨upper, lower⟩ := of_decide_eq_true (List.all_eq_true.mp neither c member)
    exact steady.elim upper lower
  · intro other
    by_contra moved
    obtain ⟨upper, lower⟩ := not_or.mp moved
    have both : (CaseRange.bits CaseRange.toUpper &&& CaseRange.bits CaseRange.toLower).testBit
        c.toNat = true := by
      rw [Nat.testBit_and, CaseRange.testBit_of_map_ne upper, CaseRange.testBit_of_map_ne lower]
      rfl
    rw [CaseRange.bits_both, testBit_bitsOf] at both
    obtain ⟨d, member, same⟩ := List.mem_map.mp both
    exact other (Char.toNat_inj.mp same ▸ member)

end Text

/-! ### Tests -/

namespace Needle

open Text (Steady encode)

variable {cs : List Char} {s t : String}

def formsOf (cs : List Char) : List (Char × Char) :=
  cs.map fun c => (Text.toUpper c, Text.toLower c)

theorem forms_new (s : String) : (new (encode s)).forms = formsOf s.toList := by
  rw [new, Text.decode?_encode]
  rfl

theorem hasInfix_iff {α : Type} [BEq α] [LawfulBEq α] {part l : List α} :
    hasInfix part l = true ↔ part <:+: l := by
  induction l with
  | nil => rw [hasInfix, List.isEmpty_iff, List.infix_nil]
  | cons a l ih =>
      rw [hasInfix, Bool.or_eq_true, List.isPrefixOf_iff_prefix, ih, List.infix_cons_iff]

/-- Characters go through their own forms. -/
theorem afterForms_formsOf (steady : ∀ c ∈ cs, Steady c) (rest : List Char) :
    afterForms (formsOf cs) (cs ++ rest) = some rest := by
  induction cs with
  | nil => rfl
  | cons c cs ih =>
      obtain ⟨first, steady⟩ := List.forall_mem_cons.mp steady
      rw [formsOf, List.map_cons, List.cons_append, afterForms]
      exact (if_pos first).trans (ih steady)

theorem steady_of_afterForms (itself : (afterForms (formsOf cs) cs).isSome) :
    ∀ c ∈ cs, Steady c := by
  induction cs with
  | nil => nofun
  | cons c cs ih =>
      rw [formsOf, List.map_cons, afterForms] at itself
      split at itself
      next first => exact List.forall_mem_cons.mpr ⟨first, ih itself⟩
      next => cases itself

example : afterForms (formsOf ['\u01C5']) ['\u01C5'] = none := by decide

theorem containsForms_append {forms : List (Char × Char)} (before : List Char) {l : List Char}
    (here : (afterForms forms l).isSome) : containsForms forms (before ++ l) = true := by
  induction before with
  | nil =>
      cases l with
      | nil => cases forms with
        | nil => rfl
        | cons => cases here
      | cons c l => rw [List.nil_append, containsForms, here, Bool.true_or]
  | cons c before ih => rw [List.cons_append, containsForms, ih, Bool.or_true]

theorem testText_of_testBytes (steady : ∀ c ∈ s.toList, Steady c) {kind : TextTest}
    (asks : kind ≠ .notEqual) (shown : (new (encode s)).testBytes (encode t) kind = true) :
    (new (encode s)).testText t.toList kind = true := by
  have bytes : (new (encode s)).bytes = encode s := rfl
  cases kind with
  | equal =>
      obtain rfl : t = s := by simpa [testBytes, bytes, Text.encode_beq] using shown
      have whole := afterForms_formsOf steady []
      rw [List.append_nil] at whole
      rw [testText, forms_new, whole]
      rfl
  | notEqual => exact absurd rfl asks
  | contains =>
      rw [testBytes, bytes, hasInfix_iff, Text.toList_encode, Text.toList_encode] at shown
      obtain ⟨before, after, same⟩ := Text.infix_of_bytes shown
      rw [testText, forms_new, ← same, List.append_assoc]
      exact containsForms_append before (by rw [afterForms_formsOf steady]; rfl)
  | beginsWith =>
      rw [testBytes, bytes, List.isPrefixOf_iff_prefix, Text.toList_encode,
        Text.toList_encode] at shown
      obtain ⟨after, same⟩ := shown
      obtain ⟨rest, same⟩ := Text.prefix_of_bytes same
      rw [testText, forms_new, ← same, afterForms_formsOf steady]
      rfl
  | endsWith =>
      -- The end is tested backwards, with the forms backwards too.
      rw [testBytes, bytes, List.isSuffixOf_iff_suffix, Text.toList_encode,
        Text.toList_encode] at shown
      obtain ⟨before, same⟩ := Text.suffix_of_bytes shown
      have backwards : (formsOf s.toList).reverse = formsOf s.toList.reverse :=
        List.map_reverse.symm
      have steady : ∀ c ∈ s.toList.reverse, Steady c := by simpa using steady
      rw [testText, forms_new, backwards, ← same, List.reverse_append, afterForms_formsOf steady]
      rfl

theorem test_notEqual (n : Needle) (caseSensitive : Bool) (value : ByteArray) :
    n.test .notEqual caseSensitive value = !n.test .equal caseSensitive value := by
  cases caseSensitive with
  | false => rfl
  | true => rfl

/-- A needle that ignores case matches all that it matches otherwise, if and only if none of its
characters differs from both of its forms. -/
theorem matches_ignoring_case_iff : (∀ c ∈ s.toList, c ∉ Text.titleCase) ↔
    ∀ (t : String) (kind : TextTest), kind ≠ .notEqual →
      (new (encode s)).test kind true (encode t) = true →
        (new (encode s)).test kind false (encode t) = true := by
  have read (t : String) (kind : TextTest) : (new (encode s)).test kind false (encode t) =
      (new (encode s)).testText t.toList kind := by
    rw [test, Text.decodeLossy_encode]
    rfl
  constructor
  · intro plain t kind asks shown
    rw [read]
    exact testText_of_testBytes (fun c member => Text.steady_iff.mpr (plain c member)) asks shown
  · intro every c member
    have same : (new (encode s)).test .equal true (encode s) = true :=
      (Text.encode_beq s s).trans (beq_self_eq_true s)
    have itself := every s .equal nofun same
    rw [read, testText, forms_new] at itself
    exact Text.steady_iff.mp (steady_of_afterForms (by rw [beq_iff_eq.mp itself]; rfl) c member)

end Needle

end ColumnStore
