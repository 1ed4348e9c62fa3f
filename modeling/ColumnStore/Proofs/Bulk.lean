import ColumnStore.Proofs.ColumnSearch
import ColumnStore.Proofs.Rounds
import ColumnStore.Proofs.View
import ColumnStore.Query.Sink

set_option autoImplicit false

/-!
Matches in bulk. A tally may take a batch, a range or the matches of whole leaves at once, and it
comes to what it comes to if it hears of the same matches one at a time.
-/
namespace ColumnStore

/-! ### Offers -/

/-- What a receiver may be offered in place of single matches. -/
inductive Bulk where
  | batch (first : Nat) (mask : UInt64)
  | range (start stop : Nat)

/-- There are some matches, as many as are offered. -/
def Bulk.Of : Bulk → List (Nat × Int64) → Prop
  | .batch _ mask, told => mask ≠ 0 ∧ told.length = Receiver.popCount mask
  | .range start stop, told => start < stop ∧ told.length = stop - start

namespace Receiver

variable {S : Type}

/-- Matches are told one by one if they are not taken in bulk. -/
def offer (r : Receiver S) (b : Bulk) (told : List (Nat × Int64)) (s : S) : S × Bool :=
  match b with
  | .batch first mask =>
      match r.onBatch s first mask with
      | some s => (s, true)
      | none => r.feed told s
  | .range start stop => (r.onRange s start stop).getD (r.feed told s)

def offers (r : Receiver S) : List (Bulk × List (Nat × Int64)) → S → S × Bool
  | [], s => (s, true)
  | o :: rest, s => Search.andThen (r.offer o.1 o.2 s) (r.offers rest)

variable {r : Receiver S} (faithful : r.Faithful)
include faithful

theorem offer_eq_feed {b : Bulk} {told : List (Nat × Int64)} (of : b.Of told) (s : S) :
    r.offer b told s = r.feed told s := by
  cases b with
  | batch first mask =>
      rw [offer]
      split
      next s' taken =>
        refine (faithful.batch s first mask s' of.1 taken told ?_).symm
        rw [of.2, popCount, bitCount_eq mask (Nat.le_refl 64)]
      next => rfl
  | range start stop =>
      rw [offer]
      cases taken : r.onRange s start stop with
      | none => rfl
      | some answer => exact (faithful.range s start stop answer of.1 taken told of.2).symm

theorem offers_eq_feed {os : List (Bulk × List (Nat × Int64))} (each : ∀ o ∈ os, o.1.Of o.2)
    (s : S) : r.offers os s = r.feed (os.flatMap Prod.snd) s := by
  induction os generalizing s with
  | nil => rfl
  | cons o os ih =>
      obtain ⟨here, rest⟩ := List.forall_mem_cons.mp each
      rw [offers, offer_eq_feed faithful here, List.flatMap_cons, Search.feed_append]
      congr 1
      funext s
      exact ih rest s

end Receiver

/-! ### Tallies -/

theorem Search.filter_hasBit_ne_nil {mask : UInt64} (some : mask ≠ 0) :
    (List.range 64).filter (hasBit mask) ≠ [] := by
  intro none
  refine some (UInt64.toNat_inj.mp (Nat.eq_of_testBit_eq fun b => ?_))
  rw [UInt64.toNat_zero, Nat.zero_testBit]
  by_cases inside : b < 64
  · rw [← hasBit_eq_testBit mask b inside]
    exact Bool.eq_false_iff.mpr (List.filter_eq_nil_iff.mp none b (List.mem_range.mpr inside))
  · have small : mask.toNat < 2 ^ b :=
      Nat.lt_of_lt_of_le mask.toNat_lt (Nat.pow_le_pow_right Nat.two_pos (Nat.le_of_not_lt inside))
    exact Nat.testBit_lt_two_pow small

namespace Tally

variable {t : Tally Int64} {told : List (Nat × Int64)} {n k : Nat}

theorem below_mono (less : k ≤ n) (room : t.below n = true) : t.below k = true := by
  rw [below] at room ⊢
  cases limit : t.limit with
  | none => rfl
  | some l =>
      simp only [limit, decide_eq_true_eq] at room ⊢
      omega

/-- Matches that stay below the limit are only counted. -/
theorem feed_counted (counts : t.action = .count) (some : told ≠ [])
    (room : t.below (t.matched + told.length) = true) :
    receiver.feed told t = ({ t with
      matched := t.matched + told.length
      value := Tallied.ofCount (t.matched + told.length) }, true) := by
  induction told generalizing t with
  | nil => exact absurd rfl some
  | cons e told ih =>
      have first : t.take e.1 e.2 = ({ t with
          matched := t.matched + 1, value := Tallied.ofCount (t.matched + 1) },
            t.below (t.matched + 1)) := by
        simp [take, counts, below]
      rw [List.length_cons, Nat.add_comm told.length, ← Nat.add_assoc] at room ⊢
      have more : t.below (t.matched + 1) = true := below_mono (Nat.le_add_right ..) room
      rw [Search.feed_cons]
      show Search.andThen (t.take e.1 e.2) (receiver.feed told) = _
      rw [first, more, Search.andThen, if_pos rfl]
      by_cases last : told = []
      · subst last
        rfl
      · exact ih counts last room

theorem faithful_receiver : receiver.Faithful where
  batch t first mask t' some taken told same := by
    have taken : t.takeBatch mask = Option.some t' := taken
    rw [takeBatch] at taken
    split at taken
    next fits =>
      cases taken
      have few : told.length ≤ 64 := by
        rw [same]
        exact Nat.le_trans (List.length_filter_le ..) (Nat.le_of_eq List.length_range)
      have many : told ≠ [] := fun none => Search.filter_hasBit_ne_nil some
        (List.length_eq_zero_iff.mp (same ▸ none ▸ rfl))
      rw [feed_counted fits.1 many (below_mono (Nat.add_le_add_left few _) fits.2), same,
        Receiver.popCount, Receiver.bitCount_eq mask (Nat.le_refl 64)]
    next => cases taken
  range t start stop answer some taken told same := by
    have taken : t.takeRange start stop = Option.some answer := taken
    rw [takeRange] at taken
    split at taken
    next fits =>
      cases taken
      have many : told ≠ [] := fun none => by
        subst none
        rw [List.length_nil] at same
        omega
      rw [feed_counted fits.1 many (same ▸ fits.2), same]
    next => cases taken

end Tally

end ColumnStore
