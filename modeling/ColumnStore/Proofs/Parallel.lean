import ColumnStore.Proofs.Memos
import ColumnStore.Proofs.Rounds
import ColumnStore.Query.Parallel
import Mathlib.Data.List.Sort

set_option autoImplicit false

/-!
Parallel scans. The chunks of a range cover it, unless one of them would end above all rows, which
fails the scan. However they are dealt to workers, what these find put in order is what a scan of
the whole range finds, also when every chunk alone keeps to the limit.
-/
namespace ColumnStore

namespace StoreM

variable {α : Type} {s s' : Store} {a : α}

theorem lift_ok {x : StateM Store α} :
    (ExceptT.lift x : StoreM α) s = (.ok a, s') ↔ x s = (a, s') := by
  show (Except.ok (x s).1, (x s).2) = _ ↔ _
  rw [Prod.mk.injEq, Except.ok.injEq, ← Prod.mk.injEq, Prod.mk.eta]

/-- A handler has no part in a run that succeeds, and one that always fails in none at all. -/
theorem tryCatch_ok {x : StoreM α} {handle : Error → StoreM α}
    (fails : ∀ e q, handle e q ≠ (.ok a, s')) :
    tryCatch x handle s = (.ok a, s') ↔ x s = (.ok a, s') := by
  have opened : tryCatch x handle s = (ExceptT.tryCatch x handle).run s := rfl
  rw [opened]
  simp only [ExceptT.tryCatch, ExceptT.run, ExceptT.mk, bind, StateT.bind]
  rcases x s with ⟨e | b, q⟩
  · exact ⟨fun run => absurd run (fails e q), fun ok => nomatch ok⟩
  · rfl

end StoreM

namespace ParallelScan

/-! ### Chunks -/

/-- Ranges that follow one another. -/
inductive Covers : Nat → Nat → List RowRange → Prop where
  | nil (row : Nat) : Covers row row []
  | cons {start mid stop : Nat} {rest : List RowRange} (some : start < mid)
      (later : Covers mid stop rest) : Covers start stop (⟨start, mid⟩ :: rest)

namespace Covers

variable {start stop : Nat} {cs : List RowRange}

theorem le (covers : Covers start stop cs) : start ≤ stop := by
  induction covers with
  | nil => exact Nat.le_refl _
  | cons some _ ih => exact Nat.le_trans (Nat.le_of_lt some) ih

theorem within (covers : Covers start stop cs) : ∀ c ∈ cs, start ≤ c.start ∧ c.stop ≤ stop := by
  induction covers with
  | nil => exact fun _ inside => nomatch inside
  | cons some later ih =>
      refine List.forall_mem_cons.mpr ⟨⟨Nat.le_refl _, later.le⟩, fun c inside => ?_⟩
      obtain ⟨low, high⟩ := ih c inside
      exact ⟨Nat.le_trans (Nat.le_of_lt some) low, high⟩

theorem ascends (covers : Covers start stop cs) : cs.Pairwise (·.start < ·.start) := by
  induction covers with
  | nil => exact .nil
  | cons some later ih =>
      exact .cons (fun c inside => Nat.lt_of_lt_of_le some (later.within c inside).1) ih

end Covers

section Chunks

variable {size start stop fuel : Nat}

theorem chunkCount_pos (positive : 0 < size) (some : start < stop) :
    chunkCount size (stop - start) = chunkCount size (stop - min stop (start + size)) + 1 := by
  rw [chunkCount, chunkCount]
  by_cases last : stop ≤ start + size
  · rw [Nat.min_eq_left last, Nat.sub_self, Nat.zero_add,
      Nat.div_eq_of_lt (Nat.sub_lt positive Nat.one_pos),
      Nat.div_eq_of_lt_le (k := 1) (by omega) (by omega)]
  · rw [Nat.min_eq_right (by omega), ← Nat.add_div_right _ positive]
    congr 1
    omega

theorem chunks_cover (positive : 0 < size) (wide : stop + size ≤ UInt64.size)
    (lower : start ≤ stop) (fueled : stop - start < fuel) :
    Covers start stop (chunks size stop fuel start) ∧
      (chunks size stop fuel start).length = chunkCount size (stop - start) := by
  induction fuel generalizing start with
  | zero => cases fueled
  | succ fuel ih =>
      rw [chunks]
      split
      next some =>
        have fits : (start + size) % UInt64.size = start + size := Nat.mod_eq_of_lt (by omega)
        rw [fits]
        obtain ⟨covers, count⟩ := ih (Nat.min_le_left stop (start + size)) (by omega)
        refine ⟨.cons (by omega) covers, ?_⟩
        rw [List.length_cons, count, chunkCount_pos positive some]
      next none =>
        obtain rfl : start = stop := by omega
        refine ⟨.nil _, ?_⟩
        rw [List.length_nil, chunkCount, Nat.sub_self, Nat.zero_add,
          Nat.div_eq_of_lt (Nat.sub_lt positive Nat.one_pos)]

/-- There is a chunk in front of the first one, although one is all there should be. -/
theorem chunks_wrap (some : start < stop) (rows : stop ≤ UInt64.size) (legal : size < UInt64.size)
    (above : UInt64.size ≤ start + size) (fueled : 1 < fuel) :
    2 ≤ (chunks size stop fuel start).length ∧ chunkCount size (stop - start) = 1 := by
  obtain ⟨fuel, rfl⟩ := Nat.exists_eq_add_of_le' fueled
  have wrapped : (start + size) % UInt64.size = start + size - UInt64.size := by
    rw [Nat.mod_eq_sub_mod above, Nat.mod_eq_of_lt (by omega)]
  constructor
  · have first : chunks size stop (fuel + 2) start = ⟨start, start + size - UInt64.size⟩ ::
        chunks size stop (fuel + 1) (start + size - UInt64.size) := by
      rw [chunks, if_pos some, wrapped, Nat.min_eq_right (by omega)]
    rw [first, chunks, if_pos (by omega)]
    simp
  · rw [chunkCount]
    exact Nat.div_eq_of_lt_le (by omega) (by omega)

end Chunks

/-! ### Workers -/

theorem positive_of_check {c : ParallelSettings} (legal : c.check = .ok ()) :
    0 < c.workerThreads ∧ 0 < c.chunkSize := by
  rw [ParallelSettings.check] at legal
  split at legal
  · cases legal
  next workers =>
  split at legal
  · cases legal
  next size => exact ⟨Nat.pos_of_ne_zero workers, Nat.pos_of_ne_zero size⟩

theorem settings_of_check {c : ParallelSettings} {q : Query} (legal : check c q = .ok ()) :
    c.check = .ok () := by
  rw [check] at legal
  cases settings : c.check with
  | error e =>
      rw [settings] at legal
      cases legal
  | ok => rfl

theorem flatMap_filter_perm {α : Type} (f : α → Nat) (l : List α) (count : Nat) :
    ((List.range count).flatMap fun k => l.filter (f · = k)).Perm (l.filter (f · < count)) := by
  induction count with
  | zero => simp
  | succ count ih =>
      rw [List.range_succ, List.flatMap_append, List.flatMap_singleton]
      have parts := List.filter_append_perm (f · < count) (l.filter (f · < count + 1))
      have below : (l.filter (f · < count + 1)).filter (f · < count) = l.filter (f · < count) := by
        rw [List.filter_filter]
        refine List.filter_congr fun a _ => ?_
        rw [← Bool.decide_and, decide_eq_decide]
        omega
      have last : ((l.filter (f · < count + 1)).filter fun a => !decide (f a < count)) =
          l.filter (f · = count) := by
        rw [List.filter_filter]
        refine List.filter_congr fun a _ => ?_
        rw [← decide_not, ← Bool.decide_and, decide_eq_decide]
        omega
      rw [below, last] at parts
      exact (ih.append_right _).trans parts

/-- Every chunk is dealt to one worker. -/
theorem deal_perm {workers : Nat} (some : 0 < workers) (cs : List RowRange) :
    (deal workers cs).flatten.Perm cs := by
  have pairs := flatMap_filter_perm (fun p : RowRange × Nat => p.2 % workers) cs.zipIdx workers
  have all : (cs.zipIdx.filter fun p => p.2 % workers < workers) = cs.zipIdx :=
    List.filter_eq_self.mpr fun p _ => decide_eq_true (Nat.mod_lt p.2 some)
  rw [all] at pairs
  have dealt := pairs.map Prod.fst
  rw [List.map_flatMap, List.zipIdx_map_fst] at dealt
  rwa [deal, ← List.flatMap_def]

/-- Sorted by their start, the results of chunks are in the order of the chunks. -/
theorem mergeSort_results {β : Type} {start stop : Nat} {cs dealt : List RowRange}
    (f : RowRange → RowRange × β) (chunk : ∀ c, (f c).1 = c) (covers : Covers start stop cs)
    (every : dealt.Perm cs) :
    (dealt.map f).mergeSort (fun a b => a.1.start ≤ b.1.start) = cs.map f := by
  have perm := (List.mergeSort_perm (dealt.map f) fun a b => a.1.start ≤ b.1.start).trans
    (every.map f)
  have starts : (cs.map RowRange.start).Nodup :=
    (List.pairwise_map.mpr covers.ascends).imp Nat.ne_of_lt
  have same : ∀ a b, a ∈ (dealt.map f).mergeSort (fun a b => a.1.start ≤ b.1.start) →
      b ∈ cs.map f → a.1.start ≤ b.1.start → b.1.start ≤ a.1.start → a = b := by
    intro a b here there le ge
    obtain ⟨c, inside, rfl⟩ := List.mem_map.mp (perm.mem_iff.mp here)
    obtain ⟨d, inside', rfl⟩ := List.mem_map.mp there
    rw [chunk, chunk] at le ge
    rw [List.inj_on_of_nodup_map starts inside inside' (Nat.le_antisymm le ge)]
  have trans (a b c : RowRange × β) : decide (a.1.start ≤ b.1.start) →
      decide (b.1.start ≤ c.1.start) → decide (a.1.start ≤ c.1.start) := by
    simpa using Nat.le_trans
  have total (a b : RowRange × β) :
      decide (a.1.start ≤ b.1.start) || decide (b.1.start ≤ a.1.start) := by
    simpa using Nat.le_total a.1.start b.1.start
  have sorted := List.pairwise_mergeSort trans total (dealt.map f)
  have ascending : (cs.map f).Pairwise fun a b => a.1.start ≤ b.1.start :=
    List.pairwise_map.mpr (covers.ascends.imp fun less => by
      rw [chunk, chunk]
      exact Nat.le_of_lt less)
  exact perm.eq_of_pairwise same (sorted.imp of_decide_eq_true) ascending

/-! ### Limits -/

section Limits

variable {α : Type} {limit : Option Nat} {p : Nat → Bool}

theorem cutTo_append (limit : Option Nat) (l l' : List α) :
    cutTo limit (cutTo limit l ++ l') = cutTo limit (l ++ l') := by
  cases limit with
  | none => rfl
  | some n =>
      have rest : n - min n l.length = n - l.length := by omega
      simp only [cutTo, List.take_append, List.take_take, Nat.min_self, List.length_take, rest]

theorem append_cutTo (limit : Option Nat) (l l' : List α) :
    cutTo limit (l ++ cutTo limit l') = cutTo limit (l ++ l') := by
  cases limit with
  | none => rfl
  | some n => simp [cutTo, List.take_append, List.take_take]

/-- A limit of every chunk leaves enough for a limit of all. -/
theorem Covers.cut {start stop : Nat} {cs : List RowRange} (covers : Covers start stop cs) :
    cutTo limit (cs.flatMap fun c => cutTo limit (matching p c.start c.stop)) =
      cutTo limit (matching p start stop) := by
  induction covers with
  | nil row => rw [List.flatMap_nil, matching_empty (Nat.le_refl row)]
  | @cons start mid stop rest some later ih =>
      rw [List.flatMap_cons, cutTo_append, ← append_cutTo, ih, append_cutTo,
        ← matching_append (Nat.le_of_lt some) later.le]

theorem length_cutTo (limit : Option Nat) (l : List α) :
    (cutTo limit l).length = min l.length (limit.getD l.length) := by
  cases limit with
  | none => exact (Nat.min_self _).symm
  | some n => rw [cutTo, List.length_take, Option.getD_some, Nat.min_comm]

theorem foldl_length (results : List (RowRange × List Nat)) (found : Nat) :
    results.foldl (fun found (_, rows) => found + rows.length) found =
      found + (results.flatMap Prod.snd).length := by
  induction results generalizing found with
  | nil => rfl
  | cons r results ih =>
      rw [List.foldl_cons, ih, List.flatMap_cons, List.length_append, Nat.add_assoc]

end Limits

/-! ### Scans of ranges -/

/-- A tally that wants no value is told about a row. -/
def tell (row : Nat) (t : Tally Int64) : Bool × Tally Int64 := ((t.take row 0).2, (t.take row 0).1)

/-- Rows are taken up to the limit. -/
theorem feed_takes {t : Tally Int64} (plain : t.action = .findAll ∨ t.action = .count)
    (more : ∀ n ∈ t.limit, t.matched < n) (rows : List Nat) :
    (feedRows tell rows t).1.matched =
        t.matched + (cutTo (t.limit.map (· - t.matched)) rows).length ∧
      (t.action = .findAll → (feedRows tell rows t).1.rows =
        t.rows ++ cutTo (t.limit.map (· - t.matched)) rows) := by
  induction rows generalizing t with
  | nil => cases limit : t.limit <;> simp [feedRows, cutTo]
  | cons row rows ih =>
      have taken : (tell row t).2.matched = t.matched + 1 ∧ (tell row t).2.limit = t.limit ∧
          (tell row t).2.action = t.action ∧ (tell row t).1 = t.below (t.matched + 1) ∧
          (t.action = .findAll → (tell row t).2.rows = t.rows ++ [row]) := by
        rcases plain with same | same <;> simp [tell, Tally.take, same, Tally.below, Tally.rows]
      obtain ⟨matched, limit, action, flag, found⟩ := taken
      rw [feedRows, flag]
      split
      next below =>
        have more' : ∀ n ∈ (tell row t).2.limit, (tell row t).2.matched < n := by
          rw [limit, matched]
          intro n here
          rw [Option.mem_def] at here
          simpa [Tally.below, here] using below
        have step : cutTo (t.limit.map (· - t.matched)) (row :: rows) =
            row :: cutTo (t.limit.map (· - (t.matched + 1))) rows := by
          cases bound : t.limit with
          | none => rfl
          | some n =>
              have less := more n bound
              rw [Option.map_some, Option.map_some, cutTo, cutTo,
                show n - t.matched = n - (t.matched + 1) + 1 by omega, List.take_succ_cons]
        obtain ⟨count, list⟩ := ih (action ▸ plain) more'
        rw [matched, limit] at count list
        rw [step]
        refine ⟨by rw [count, List.length_cons]; omega, fun all => ?_⟩
        rw [list (action.trans all), found all, List.append_assoc, List.singleton_append]
      next full =>
        have last : cutTo (t.limit.map (· - t.matched)) (row :: rows) = [row] := by
          cases bound : t.limit with
          | none => simp [Tally.below, bound] at full
          | some n =>
              have less := more n bound
              simp only [Tally.below, bound, decide_eq_true_eq] at full
              rw [Option.map_some, cutTo, show n - t.matched = 1 by omega]
              rfl
        rw [last]
        exact ⟨matched, found⟩

section

variable {limit : Option Nat} (wanted : limit ≠ some 0) (rows : List Nat)
include wanted

theorem feed_findAll :
    (feedRows tell rows { action := .findAll, value := 0, limit }).1.rows = cutTo limit rows := by
  have takes := (feed_takes (t := { action := .findAll, value := 0, limit }) (.inl rfl)
    (fun n here => Nat.pos_of_ne_zero fun zero => wanted (zero ▸ here)) rows).2 rfl
  rw [takes]
  cases limit <;> rfl

theorem feed_count : (feedRows tell rows { action := .count, value := 0, limit }).1.matched =
    (cutTo limit rows).length := by
  have takes := (feed_takes (t := { action := .count, value := 0, limit }) (.inr rfl)
    (fun n here => Nat.pos_of_ne_zero fun zero => wanted (zero ▸ here)) rows).1
  rw [takes, Nat.zero_add]
  cases limit <;> rfl

end

/-- A query can be bound, and its chain tells the rows that `p` says, whatever it remembers. -/
structure Scans (q : Query) (t : Table) (I : Store → Prop) (K : List Probe → Prop)
    (p : Nat → Bool) : Prop where
  binds : ∀ s, I s → ∃ chain s', q.bind t s = (.ok chain, s') ∧ K chain ∧ I s'
  tells : ∀ chain s start stop tally, K chain → I s → stop ≤ t.size →
    ∃ chain' sink s', ({ tally, source := none } : Sink Node Int64).aggregate q.settings q.depth
        chain start stop s = ((chain', sink), s') ∧
      K chain' ∧ I s' ∧ sink.tally = (feedRows tell (matching p start stop) tally).1

section

variable {q : Query} {t : Table} {I : Store → Prop} {K : List Probe → Prop} {p : Nat → Bool}
  {limit : Option Nat} {s : Store} {cs : List RowRange}

/-- What a chunk gives. -/
abbrev result (p : Nat → Bool) (limit : Option Nat) (c : RowRange) : RowRange × List Nat :=
  (c, cutTo limit (matching p c.start c.stop))

variable (scans : Scans q t I K p) (wanted : limit ≠ some 0)
include scans wanted

theorem scanChunks_finds {chain : List Probe} (known : K chain) (inv : I s)
    (inside : ∀ c ∈ cs, c.stop ≤ t.size) :
    ∃ s', scanChunks q limit chain cs s = (.ok (cs.map (result p limit)), s') ∧ I s' := by
  induction cs generalizing chain s with
  | nil => exact ⟨s, rfl, inv⟩
  | cons c cs ih =>
      obtain ⟨here, rest⟩ := List.forall_mem_cons.mp inside
      obtain ⟨chain', sink, s₁, run, known, inv, told⟩ := scans.tells chain s c.start c.stop
        { action := .findAll, value := 0, limit } known inv here
      obtain ⟨s₂, later, inv⟩ := ih known inv rest
      refine ⟨s₂, ?_, inv⟩
      have rows : sink.tally.rows = cutTo limit (matching p c.start c.stop) := by
        rw [told, feed_findAll wanted]
      rw [scanChunks]
      refine StoreM.bind_ok.mpr ⟨_, s, rfl, StoreM.bind_ok.mpr ⟨_, s₁, StoreM.lift_ok.mpr run, ?_⟩⟩
      exact StoreM.bind_ok.mpr ⟨_, s₂, later, by rw [rows]; rfl⟩

theorem work_finds (inv : I s) (worker : Nat) (inside : ∀ c ∈ cs, c.stop ≤ t.size) :
    ∃ s', work q t limit worker cs s = (.ok (cs.map (result p limit)), s') ∧ I s' := by
  obtain ⟨chain, s₁, bound, known, inv⟩ := scans.binds s inv
  obtain ⟨s', run, inv⟩ := scanChunks_finds scans wanted known inv inside
  refine ⟨s', ?_, inv⟩
  rw [work, StoreM.tryCatch_ok (fun e q failed => by cases failed)]
  exact StoreM.bind_ok.mpr ⟨chain, s₁, bound, run⟩

theorem workers_find {load : List (List RowRange × Nat)} (inv : I s)
    (inside : ∀ w ∈ load, ∀ c ∈ w.1, c.stop ≤ t.size) :
    ∃ s', (load.mapM fun (chunks, worker) => work q t limit worker chunks) s =
      (.ok (load.map fun w => w.1.map (result p limit)), s') ∧ I s' := by
  induction load generalizing s with
  | nil => exact ⟨s, rfl, inv⟩
  | cons w load ih =>
      obtain ⟨here, rest⟩ := List.forall_mem_cons.mp inside
      obtain ⟨s₁, run, inv⟩ := work_finds scans wanted inv w.2 here
      obtain ⟨s₂, later, inv⟩ := ih inv rest
      refine ⟨s₂, ?_, inv⟩
      rw [List.mapM_cons]
      exact StoreM.bind_ok.mpr ⟨_, s₁, run, StoreM.bind_ok.mpr ⟨_, s₂, later, rfl⟩⟩

/-- However chunks are distributed, their results come in the order of the chunks. -/
theorem runWorkload_finds {start stop : Nat} {load : Workload} (covers : Covers start stop cs)
    (inside : stop ≤ t.size) (every : load.flatten.Perm cs) (inv : I s) :
    ∃ s', runWorkload q t limit load s = (.ok (cs.map (result p limit)), s') ∧ I s' := by
  have within : ∀ w ∈ load.zipIdx, ∀ c ∈ w.1, c.stop ≤ t.size := by
    intro w here c inside'
    have listed := List.mem_flatten.mpr ⟨w.1, List.fst_mem_of_mem_zipIdx here, inside'⟩
    exact Nat.le_trans (covers.within c (every.mem_iff.mp listed)).2 inside
  obtain ⟨s', run, inv⟩ := workers_find scans wanted inv within
  refine ⟨s', ?_, inv⟩
  have results : (load.zipIdx.map fun w => w.1.map (result p limit)).flatten =
      load.flatten.map (result p limit) := by
    have first : (fun w : List RowRange × Nat => w.1.map (result p limit)) =
        List.map (result p limit) ∘ Prod.fst := rfl
    rw [first, ← List.map_map, List.zipIdx_map_fst, List.map_flatten]
  have sorted := mergeSort_results (result p limit) (fun _ => rfl) covers every
  rw [runWorkload]
  exact StoreM.bind_ok.mpr ⟨_, s', run, by rw [results, sorted]; rfl⟩

/-- A scan whose chunks do not reach above all rows finds, chunk by chunk, what matches. -/
theorem run_finds {c : ParallelSettings} (legal : c.check = .ok ())
    (wide : t.size + c.chunkSize ≤ UInt64.size) (start : Nat) (stop : Option Nat) (inv : I s) :
    ∃ cs s', Covers (min start (Node.stopOf t.size stop)) (Node.stopOf t.size stop) cs ∧
      run c q t start stop limit s = (.ok (cs.map (result p limit)), s') ∧ I s' := by
  have inside : Node.stopOf t.size stop ≤ t.size := Nat.min_le_right _ _
  have lower := Nat.min_le_right start (Node.stopOf t.size stop)
  rw [run]
  generalize Node.stopOf t.size stop = stop at inside lower ⊢
  generalize min start stop = start at lower ⊢
  dsimp only
  by_cases none : start = stop
  · subst none
    exact ⟨[], s, .nil start, by rw [if_pos (.inr rfl)]; rfl, inv⟩
  · rw [if_neg (not_or.mpr ⟨wanted, none⟩)]
    obtain ⟨workers, positive⟩ := positive_of_check legal
    have covers : Covers start stop (chunks c.chunkSize stop (start + stop + 1) start) ∧ _ :=
      chunks_cover positive (Nat.le_trans (by omega) wide) lower (by omega)
    have dealt : (workload c start stop).flatten.Perm _ :=
      deal_perm (Nat.lt_min.mpr ⟨workers, by rw [chunkCount_pos positive (by omega)]; omega⟩) _
    obtain ⟨s', found, inv⟩ := runWorkload_finds scans wanted covers.1 inside dealt inv
    refine ⟨_, s', covers.1, StoreM.bind_ok.mpr ⟨_, s', found, ?_⟩, inv⟩
    rw [if_neg (by rw [List.length_map, covers.2]; exact not_not.mpr rfl)]
    rfl

omit wanted in
/-- The serial scan tells the whole range. -/
theorem runRows_tells (tally : Tally Int64) (start : Nat) (stop : Option Nat) (inv : I s) :
    ∃ s', q.runRows t tally start stop s = (.ok (if tally.limit = some 0 then tally else
      (feedRows tell (matching p (min start (Node.stopOf t.size stop)) (Node.stopOf t.size stop))
        tally).1), s') := by
  obtain ⟨chain, s₁, bound, known, inv⟩ := scans.binds s inv
  by_cases none : tally.limit = Option.some 0
  · refine ⟨s₁, StoreM.bind_ok.mpr ⟨chain, s₁, bound, ?_⟩⟩
    rw [if_pos none, if_pos none]
    rfl
  · obtain ⟨chain', sink, s₂, told, -, -, same⟩ := scans.tells chain s₁
      (min start (Node.stopOf t.size stop)) (Node.stopOf t.size stop) tally known inv
      (Nat.min_le_right _ _)
    refine ⟨s₂, StoreM.bind_ok.mpr ⟨chain, s₁, bound, ?_⟩⟩
    rw [if_neg none, if_neg none, ← same]
    exact StoreM.bind_ok.mpr ⟨_, s₂, StoreM.lift_ok.mpr told, rfl⟩

end

/-- Whatever workers receive, their results put together and cut to the limit are those of the
serial scan: the same rows, and as many. -/
theorem finds_serial {q : Query} {t : Table} {I : Store → Prop} {K : List Probe → Prop}
    {p : Nat → Bool} {s : Store} {c : ParallelSettings} (scans : Scans q t I K p)
    (legal : check c q = .ok ()) (wide : t.size + c.chunkSize ≤ UInt64.size) (inv : I s)
    (start : Nat) (stop limit : Option Nat) {rows : List Nat}
    (all : rows = cutTo limit
      (matching p (min start (Node.stopOf t.size stop)) (Node.stopOf t.size stop))) :
    (∃ s', q.findAll t start stop limit s = (.ok rows, s')) ∧
      (∃ s', findAll c q t start stop limit s = (.ok rows, s')) ∧
      (∃ s', q.count t start stop limit s = (.ok rows.length, s')) ∧
      (∃ s', count c q t start stop limit s = (.ok rows.length, s')) := by
  obtain ⟨s₁, found⟩ := runRows_tells scans { action := .findAll, value := 0, limit } start stop inv
  obtain ⟨s₂, counted⟩ := runRows_tells scans { action := .count, value := 0, limit } start stop inv
  obtain ⟨results, s₃, ran, cut⟩ : ∃ results s', run c q t start stop limit s = (.ok results, s') ∧
      cutTo limit (results.flatMap Prod.snd) = rows := by
    by_cases none : limit = some 0
    · refine ⟨[], s, by rw [run, if_pos (.inl none)]; rfl, ?_⟩
      rw [all, none]
      rfl
    · obtain ⟨cs, s', covers, ran, -⟩ :=
        run_finds scans none (settings_of_check legal) wide start stop inv
      exact ⟨_, s', ran, by rw [List.flatMap_map, covers.cut, all]⟩
  refine ⟨⟨s₁, ?_⟩, ⟨s₃, ?_⟩, ⟨s₂, ?_⟩, ⟨s₃, ?_⟩⟩
  · refine StoreM.bind_ok.mpr ⟨_, s, rfl, StoreM.bind_ok.mpr ⟨_, s₁, found, ?_⟩⟩
    split
    next none =>
      rw [all, show limit = some 0 from none]
      rfl
    next wanted =>
      rw [feed_findAll wanted, ← all]
      rfl
  · rw [findAll, legal]
    exact StoreM.bind_ok.mpr ⟨(), s, rfl, StoreM.bind_ok.mpr ⟨results, s₃, ran, by rw [cut]; rfl⟩⟩
  · refine StoreM.bind_ok.mpr ⟨_, s, rfl, StoreM.bind_ok.mpr ⟨_, s₂, counted, ?_⟩⟩
    split
    next none =>
      rw [all, show limit = some 0 from none]
      rfl
    next wanted =>
      rw [feed_count wanted, ← all]
      rfl
  · rw [count, legal]
    refine StoreM.bind_ok.mpr ⟨(), s, rfl, StoreM.bind_ok.mpr ⟨results, s₃, ran, ?_⟩⟩
    rw [← cut, length_cutTo, ← Nat.zero_add (results.flatMap Prod.snd).length, ← foldl_length]
    rfl

/-! ### Chains that leave the store as it is -/

/-- A search over integers, which has a way of its own to lead. -/
def OverInts (p : Probe) : Prop := ∃ col values test needle leafTime cursor,
  p.scan = .int col values test needle leafTime cursor

section

variable {L R : Type} [Tallied R] [Payload L R] {search : Probe.ChainSearch} {I : Store → Prop}
  {M : (Nat → Bool) → Probe → Prop} {qs : List (Nat → Bool)} {size : Nat} {s₀ : Store}

theorem leads_of_lawful {tell : Nat → Sink L R → Bool × Sink L R}
    (lawful : (Sink.scheduler search).Lawful I M size tell)
    (others : ∀ q p, M q p → ¬ OverInts p) :
    Scheduler.LeadsOn I M qs size tell (Sink.lead (Sink.scheduler search)) := by
  intro i start stop limit t low lower inside positive r running
  have same : Sink.lead (Sink.scheduler search) i start stop limit r =
      (Sink.scheduler search).lead i start stop limit r := by
    obtain ⟨p, here, means⟩ := forall₂_get running.chain (List.getElem?_eq_getElem low)
    rw [Sink.lead, get_bind_apply, here]
    obtain ⟨stats, scan⟩ := p
    cases scan
    case int => exact absurd ⟨_, _, _, _, _, _, rfl⟩ (others _ _ means)
    all_goals rfl
  rw [same]
  exact Scheduler.lead_leadsOn lawful i start stop limit t low lower inside positive r running

theorem scheduler_lawful (lawful : (Probe.prober search).Lawful (· = s₀) M size) :
    (Sink.scheduler search).Lawful (· = s₀) M size
      fun row (sink : Sink L R) => sink.report row s₀.memory where
  prober := lawful
  report _ _ _ same := by
    rw [← same]
    rfl

end

theorem feed_sink (m : Memory) (rows : List Nat) (tally : Tally Int64) :
    (feedRows (fun row (sink : Sink Node Int64) => sink.report row m) rows
      { tally, source := none }).1.tally = (feedRows tell rows tally).1 := by
  induction rows generalizing tally with
  | nil => rfl
  | cons row rows ih =>
      rw [feedRows, feedRows]
      split
      next more =>
        rw [if_pos (show (tell row tally).1 = true from more)]
        exact ih (tell row tally).2
      next stop =>
        rw [if_neg (show ¬ (tell row tally).1 = true from stop)]
        rfl

theorem scans_of_lawful {q : Query} {t : Table} {M : (Nat → Bool) → Probe → Prop}
    {qs : List (Nat → Bool)} {s₀ : Store} {chain : List Probe}
    (lawful : (Probe.prober (Probe.searchChain (q.depth - 1))).Lawful (· = s₀) M t.size)
    (others : ∀ q p, M q p → ¬ OverInts p) (legal : q.settings.check = .ok ())
    (bound : q.bind t s₀ = (.ok chain, s₀)) (means : List.Forall₂ M qs chain) :
    Scans q t (· = s₀) (List.Forall₂ M qs) (passes qs) where
  binds := by
    rintro s rfl
    exact ⟨chain, s, bound, means, rfl⟩
  tells := by
    rintro chain s start stop tally means rfl inside
    have lawful := scheduler_lawful (L := Node) lawful
    have running : Scheduler.Running (· = s) M qs (feedRows
        (fun row (sink : Sink Node Int64) => sink.report row s.memory)
        (matching (passes qs) start stop) { tally, source := none }).1 _ :=
      Scheduler.aggregate_ensures lawful (leads_of_lawful lawful others)
        (QuerySettings.positive_of_check legal) inside ⟨chain, _, s⟩ ⟨rfl, means, rfl⟩
    exact ⟨_, _, _, rfl, running.chain, running.shared,
      (congrArg Sink.tally running.sink).trans (feed_sink s.memory _ tally)⟩

/-- The rows with "x", found by one and by two. -/
theorem finds_serial_indexedText :
    let q : Query := .ofCalls {} [.test (.exactText 0 (Text.encode "x"))]
    (∃ s', q.findAll Probe.indexedText 0 none none (.empty {}) = (.ok [2, 5, 6], s')) ∧
      ∃ s', findAll { workerThreads := 2, chunkSize := 3 } q Probe.indexedText 0 none none
        (.empty {}) = (.ok [2, 5, 6], s') := by
  intro q
  have lawful := Probe.rows_lawful (Probe.searchChain 0) (· = Store.empty {}) 10
  have others (r : Nat → Bool) (p : Probe) (rows : Probe.IsRows r p) : ¬ OverInts p := by
    obtain ⟨_, _, rfl, -⟩ := rows
    rintro ⟨_, _, _, _, _, _, same⟩
    cases same
  have means : List.Forall₂ Probe.IsRows [fun row => decide (row ∈ [2, 5, 6])]
      [Probe.fresh 10.0 0.0 (.rows [2, 5, 6])] :=
    .cons ⟨_, [2, 5, 6], rfl, by decide, rfl⟩ .nil
  have scans : Scans q Probe.indexedText _ _ _ :=
    scans_of_lawful lawful others (show QuerySettings.check {} = .ok () from rfl)
      (Probe.bindChain_indexedText {} "x" _) means
  have all : [2, 5, 6] =
      cutTo none (matching (passes [fun row => decide (row ∈ [2, 5, 6])]) 0 10) := by decide
  obtain ⟨serial, parallel, -⟩ := finds_serial (c := { workerThreads := 2, chunkSize := 3 }) scans
    rfl (by decide) rfl 0 none none all
  exact ⟨serial, parallel⟩

/-! ### Chunks above all rows -/

section

variable {q : Query} {t : Table} {limit : Option Nat} {s s' : Store}

theorem length_scanChunks {chain : List Probe} {cs : List RowRange}
    {results : List (RowRange × List Nat)}
    (run : scanChunks q limit chain cs s = (.ok results, s')) : results.length = cs.length := by
  induction cs generalizing chain s results with
  | nil =>
      cases run
      rfl
  | cons c cs ih =>
      obtain ⟨_, _, -, run⟩ := StoreM.bind_ok.mp run
      obtain ⟨_, _, -, run⟩ := StoreM.bind_ok.mp run
      obtain ⟨rest, _, later, run⟩ := StoreM.bind_ok.mp run
      cases run
      rw [List.length_cons, List.length_cons, ih later]

theorem length_workers {load : List (List RowRange × Nat)}
    {results : List (List (RowRange × List Nat))}
    (run : (load.mapM fun (chunks, worker) => work q t limit worker chunks) s = (.ok results, s')) :
    results.map List.length = load.map (·.1.length) := by
  induction load generalizing s results with
  | nil =>
      cases run
      rfl
  | cons w load ih =>
      rw [List.mapM_cons] at run
      obtain ⟨found, _, here, run⟩ := StoreM.bind_ok.mp run
      obtain ⟨rest, _, later, run⟩ := StoreM.bind_ok.mp run
      cases run
      have here : work q t limit w.2 w.1 s = _ := here
      rw [work, StoreM.tryCatch_ok (fun e q failed => by cases failed)] at here
      obtain ⟨_, _, -, here⟩ := StoreM.bind_ok.mp here
      rw [List.map_cons, List.map_cons, ih later, length_scanChunks here]

/-- Every chunk that was dealt gives one result. -/
theorem length_runWorkload {load : Workload} {results : List (RowRange × List Nat)}
    (run : runWorkload q t limit load s = (.ok results, s')) :
    results.length = load.flatten.length := by
  obtain ⟨found, _, here, run⟩ := StoreM.bind_ok.mp run
  cases run
  have first : (fun w : List RowRange × Nat => w.1.length) = List.length ∘ Prod.fst := rfl
  rw [List.length_mergeSort, List.length_flatten, length_workers here, List.length_flatten, first,
    ← List.map_map, List.zipIdx_map_fst]

/-- A first chunk that would end above all rows fails the scan. -/
theorem findAll_wraps {c : ParallelSettings} {start : Nat} {stop : Option Nat} {rows : List Nat}
    (wanted : limit ≠ some 0) (few : t.size ≤ UInt64.size) (legal : c.chunkSize < UInt64.size)
    (nonempty : start < Node.stopOf t.size stop) (above : UInt64.size ≤ start + c.chunkSize) :
    findAll c q t start stop limit s ≠ (.ok rows, s') := by
  intro ok
  obtain ⟨_, s₁, valid, ok⟩ := StoreM.bind_ok.mp ok
  have settings : c.check = .ok () := by
    cases same : check c q with
    | error e =>
        rw [same] at valid
        cases valid
    | ok => exact settings_of_check same
  obtain ⟨results, s₂, ran, -⟩ := StoreM.bind_ok.mp ok
  have inside : Node.stopOf t.size stop ≤ t.size := Nat.min_le_right _ _
  rw [run, Nat.min_eq_left (Nat.le_of_lt nonempty)] at ran
  dsimp only at ran
  rw [if_neg (not_or.mpr ⟨wanted, Nat.ne_of_lt nonempty⟩)] at ran
  obtain ⟨found, s₃, worked, ran⟩ := StoreM.bind_ok.mp ran
  obtain ⟨more, one⟩ := chunks_wrap nonempty (Nat.le_trans inside few) legal above
    (show 1 < start + Node.stopOf t.size stop + 1 by omega)
  have dealt : (workload c start (Node.stopOf t.size stop)).flatten.Perm
      (chunks c.chunkSize (Node.stopOf t.size stop) (start + Node.stopOf t.size stop + 1) start) :=
    deal_perm (Nat.lt_min.mpr ⟨(positive_of_check settings).1, by omega⟩) _
  rw [if_pos (by rw [length_runWorkload worked, dealt.length_eq, one]; omega)] at ran
  cases ran

end

end ParallelScan

end ColumnStore
