import ColumnStore.Proofs.LinkLists
import ColumnStore.Proofs.RowTests

set_option autoImplicit false

/-!
Searches for rows with links. The target with all bits set stands for no row, and rows without a
link answer to it.
-/
namespace ColumnStore

theorem LinkColumn.eq_encode {v : Int64} {target : Option Nat}
    (small : ∀ row ∈ target, row < Link.nowhere) : v = encode target ↔ decode v = target := by
  cases target with
  | none =>
      -- All bits set plus one wraps to the word of no link.
      rw [show encode none = 0 from rfl, decode]
      split <;> simp [*]
  | some row =>
      have bound : row + 1 < 2 ^ 64 := Nat.add_lt_of_lt_sub (small row rfl)
      have stored : encode (some row) = Slot.ofRef (row + 1) := (Int64.ofNat_add row 1).symm
      have number : v = Slot.ofRef (row + 1) ↔ v.toUInt64.toNat = row + 1 :=
        ⟨fun same => same ▸ Slot.toRef_ofRef bound, fun same => same ▸ (Slot.ofRef_toRef v).symm⟩
      have zero : v = 0 ↔ v.toUInt64.toNat = 0 :=
        ⟨fun same => same ▸ rfl, fun same => (Slot.ofRef_toRef v).symm.trans (congrArg _ same)⟩
      rw [stored, number, decode]
      split
      next none => simp [zero.mp none]
      next some =>
        have positive := zero.not.mp some
        rw [Option.some.injEq]
        omega

/-- The row links to the target, or its list has a link to it. -/
def Table.linksAt (m : Memory) (t : Table) (col : Nat) (target : Option Nat) (row : Nat) : Bool :=
  (t.getLink m col row).toOption.any (· == target) ||
    (t.getLinks m col row).toOption.any (·.contains (target.getD Link.nowhere))

namespace Probe

variable {s s' : Store} {t : Table} {b col : Nat} {x : Sheet} {R : Assertion} {p : Probe}
  {target : Option Nat}

/-- The lists of a column are what is read from it. -/
theorem lists_read {c : LinkListColumn} (h : s.Holds (t.holds b x * R))
    (small : b < Slot.countBound) (found : t.columnOf LinkListColumn col = .ok c) :
    ∃ lists, lists.length = t.size ∧ LinkListColumn.Shows s.memory c lists := by
  obtain ⟨⟨-, size, most⟩, held⟩ := Table.holds_mul.mp h
  obtain ⟨y, -, held⟩ := (Assertion.each_apart (Table.columnOf_ok found)).mp held
  obtain ⟨length, held⟩ := Table.columnIn_mul.mp held
  obtain ⟨words, rfl, lists⟩ := Assertion.made_mul.mp held
  obtain ⟨vs, slots⟩ := LinkListColumn.holds_mul.mp lists
  have few : words.length < Slot.countBound := Nat.lt_of_le_of_lt (length.trans_le most) small
  refine ⟨Link.targets words, ?_, LinkListColumn.shows_of_slots slots few⟩
  rw [Link.length_targets, size]
  exact length

theorem bindLinks_means (h : s.Holds (t.holds b x * R)) (small : b < Slot.countBound)
    (bounded : ∀ row ∈ target, row < Link.nowhere)
    (run : bindLinks t col target s = (.ok p, s')) :
    s' = s ∧ Means s t.size (t.linksAt s.memory col target) p := by
  obtain ⟨c, found, run⟩ := StoreM.except_bind_ok.mp run
  cases c with
  | link c =>
      obtain ⟨rfl, rfl⟩ := StoreM.pure_ok.mp run
      have here : t.columnOf LinkColumn col = .ok c := Table.columnOf_of_column found rfl
      refine ⟨rfl, _, .word (reads_column h.sees (f := .link) here rfl fun _ => rfl),
        fun row inside => ?_⟩
      have other : t.getLinks s.memory col row = .error (t.mismatch col Kind.linkList.name) := by
        simp only [Table.getLinks, Table.cell, Table.checkRow, if_pos inside, Table.columnOf, found]
        rfl
      rw [Table.linksAt, other, Table.getLink, Table.cell_eq here inside]
      show (LinkColumn.get s.memory c row == target || false) =
        (c.values.get s.memory row == LinkColumn.encode target)
      rw [Bool.or_false, Bool.eq_iff_iff, beq_iff_eq, beq_iff_eq, LinkColumn.eq_encode bounded]
      rfl
  | linkList c =>
      obtain ⟨rfl, rfl⟩ := StoreM.pure_ok.mp run
      have here : t.columnOf LinkListColumn col = .ok c := Table.columnOf_of_column found rfl
      obtain ⟨lists, size, shows⟩ := lists_read h small here
      refine ⟨rfl, _, .lists, fun row inside => ?_⟩
      have other : t.getLink s.memory col row = .error (t.mismatch col Kind.link.name) := by
        simp only [Table.getLink, Table.cell, Table.checkRow, if_pos inside, Table.columnOf, found]
        rfl
      have short : target.getD Link.nowhere < UInt64.size := by
        cases target with
        | none => decide
        | some row => exact Nat.lt_trans (bounded row rfl) (by decide)
      rw [Table.linksAt, other, Table.getLinks, Table.cell_eq here inside]
      have inside : row < lists.length := size ▸ inside
      show (LinkListColumn.get s.memory c row).contains (target.getD Link.nowhere) =
        c.contains s.memory row (target.getD Link.nowhere)
      rw [shows.get row inside, Bool.eq_iff_iff, List.contains_iff_mem,
        shows.contains row inside _ short]
  | _ => cases run

end Probe

/-- Searches for links, asked in any order, find the first row of the range that has the link. -/
theorem Table.linkSearches_rowwise {settings : StoreSettings} {schema : List ColumnSpec}
    {ops : List Table.Op} {s s' : Store} {t : Table} {config : QuerySettings} {col : Nat}
    {target : Option Nat} {p : Probe} (max : settings.maxNodeSize < 2 ^ 24 - 2)
    (built : Table.Built settings schema ops s t) (short : Table.Short ops (.ofSchema schema))
    (few : Table.weight ops < Slot.countBound) (bounded : ∀ row ∈ target, row < Link.nowhere)
    (bound : Probe.bind config t (.linksTo col target) s = (.ok p, s'))
    (search : Probe.ChainSearch) (ranges : List (Nat × Option Nat)) :
    s' = s ∧ List.Forall₂
      (fun range => First (t.linksAt s.memory col target) range.1 (Node.stopOf t.size range.2))
      ranges (Probe.answers search t.size ranges p s') := by
  have h := built.holds max short few
  have small := Nat.lt_of_le_of_lt (Table.size_le_of_sees h.sees) few
  rw [Probe.bind] at bound
  obtain ⟨rfl, means⟩ := Probe.bindLinks_means h few bounded bound
  have known : Prober.Knows (· = s') (Probe.Means s' t.size)
      [t.linksAt s'.memory col target] ([p], s') := ⟨rfl, .cons means .nil⟩
  have lawful := Probe.means_lawful (s := s') search small
  exact ⟨rfl, (Query.findInRanges_ensures lawful (i := 0) rfl ranges _ known).2⟩

def oneLink : List ColumnSpec := [{ name := "link", kind := .link }]

def linkOps : List Table.Op := [.addRows 3, .setLink 0 1 (some 3)]

/-- The rows that are found have no link. -/
theorem Table.linkSearches_rowwise_unlinked : ∃ s t p,
    Table.Built { maxNodeSize := 16 } oneLink linkOps s t ∧
      Probe.bind {} t (.linksTo 0 none) s = (.ok p, s) ∧
      Probe.answers (Probe.searchChain 1) 3 [(0, none), (1, none), (1, some 2)] p s =
        [some 0, some 2, none] ∧
      List.Forall₂ (fun range => First (t.linksAt s.memory 0 none) range.1 (Node.stopOf 3 range.2))
        [(0, none), (1, none), (1, some 2)] [some 0, some 2, none] := by
  have answers : ((Table.ofOps { maxNodeSize := 16 } oneLink linkOps >>= fun t =>
      Probe.bind {} t (.linksTo 0 none) >>= fun p s =>
        (.ok (t.size, Probe.answers (Probe.searchChain 1) t.size
          [(0, none), (1, none), (1, some 2)] p s), s)) (.empty {})).1.toOption =
      some (3, [some 0, some 2, none]) := by decide +kernel
  rw [StoreM.bind_apply] at answers
  cases made : Table.ofOps { maxNodeSize := 16 } oneLink linkOps (.empty {}) with
  | mk r s =>
      rw [made] at answers
      cases r with
      | error e => cases answers
      | ok t =>
          have built := Table.ofOps_built (Store.sound_empty {}) made
          simp only [StoreM.bind_apply] at answers
          cases binds : Probe.bind {} t (.linksTo 0 none) s with
          | mk r s' =>
              rw [binds] at answers
              cases r with
              | error e => cases answers
              | ok p =>
                  obtain ⟨size, found⟩ := Prod.mk.inj (Option.some.inj answers)
                  have short : Table.Short linkOps (.ofSchema oneLink) :=
                    ⟨trivial, trivial, trivial⟩
                  have bounded : ∀ row ∈ (none : Option Nat), row < Link.nowhere := nofun
                  obtain ⟨rfl, rowwise⟩ := Table.linkSearches_rowwise (by decide) built short
                    (by decide) bounded binds (Probe.searchChain 1)
                    [(0, none), (1, none), (1, some 2)]
                  rw [found, size] at rowwise
                  rw [size] at found
                  exact ⟨_, t, p, built, binds, found, rowwise⟩

end ColumnStore
