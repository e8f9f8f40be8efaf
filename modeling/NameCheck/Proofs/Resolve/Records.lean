import Mathlib.Data.Finset.Card
import Mathlib.Data.List.Sort
import NameCheck.Proofs.Listings
import NameCheck.Proofs.Token.Places
import NameCheck.Resolve.Resolutions

/-!
# Histories of resolutions

A table of resolutions is asked one thing after another, from the empty table on.  At each position
stands what was last recorded there, and the table lists each position once, in order.  In which
order different positions were recorded cannot be seen, and neither can the order in which a table
keeps its entries, if they are sorted before they are listed.
-/

namespace NameCheck.Resolutions

/-! ## Operations and answers -/

/-- What a table can be asked. -/
inductive Operation where
  | record (p : Position) (symbol : Symbol)
  | get (p : Position)

/-- What a table answers: that it was done, or what stands at the position. -/
inductive Answer where
  | done
  | found (symbol : Option Symbol)

/-- The answer to an operation, and the table after it. -/
def perform (table : Resolutions) : Operation → Answer × Resolutions
  | .record p symbol => (.done, table.record p symbol)
  | .get p => (.found (table.get? p), table)

/-- The answers to operations, one after another, and the table after them. -/
def run (table : Resolutions) : List Operation → List Answer × Resolutions
  | [] => ([], table)
  | op :: ops =>
    let (answers, last) := (table.perform op).2.run ops
    ((table.perform op).1 :: answers, last)

variable {table table' : Resolutions} {ops others before : List Operation} {p : Position}
  {symbol : Symbol} {stored : List (Position × Symbol)}

theorem length_run (table : Resolutions) (ops : List Operation) :
    (table.run ops).1.length = ops.length := by
  induction ops generalizing table with
  | nil => rfl
  | cons op ops ih => exact congrArg Nat.succ (ih (table.perform op).2)

theorem run_append (table : Resolutions) (ops others : List Operation) :
    table.run (ops ++ others) = ((table.run ops).1 ++ ((table.run ops).2.run others).1,
      ((table.run ops).2.run others).2) := by
  induction ops generalizing table with
  | nil => rfl
  | cons op ops ih =>
      rw [List.cons_append, run, ih]
      rfl

/-! ## What was recorded -/

/-- What an operation records, and where. -/
def Operation.record? : Operation → Option (Position × Symbol)
  | .record p symbol => some (p, symbol)
  | .get _ => none

/-- What operations record, the first record first. -/
def records (ops : List Operation) : List (Position × Symbol) :=
  ops.filterMap Operation.record?

/-- The positions at which operations record something, as often as they do. -/
def positions (ops : List Operation) : List Position :=
  (records ops).map Prod.fst

/-- The last of the symbols that operations record at a position. -/
def lastAt (ops : List Operation) (p : Position) : Option Symbol :=
  ((records ops).filter fun entry => entry.1 = p).getLast?.map Prod.snd

theorem lastAt_eq_none_iff : lastAt ops p = none ↔ p ∉ positions ops := by
  rw [lastAt, Option.map_eq_none_iff, List.getLast?_eq_none_iff, List.filter_eq_nil_iff]
  constructor
  · intro h hmem
    obtain ⟨entry, hentry, rfl⟩ := List.mem_map.mp hmem
    exact h entry hentry (decide_eq_true rfl)
  · intro h entry hentry heq
    exact h (List.mem_map.mpr ⟨entry, hentry, of_decide_eq_true heq⟩)

theorem lastAt_concat_record (ops : List Operation) (p q : Position) (symbol : Symbol) :
    lastAt (ops ++ [.record p symbol]) q = if q = p then some symbol else lastAt ops q := by
  have hrecords : records (ops ++ [.record p symbol]) = records ops ++ [(p, symbol)] :=
    List.filterMap_append
  rw [lastAt, hrecords, List.filter_append]
  by_cases hq : q = p
  · simp [hq]
  · simp [lastAt, hq, Ne.symm hq]

theorem lastAt_concat_get (ops : List Operation) (p q : Position) :
    lastAt (ops ++ [.get p]) q = lastAt ops q := by
  have hrecords : records (ops ++ [.get p]) = records ops := by
    simp [records, Operation.record?]
  rw [lastAt, hrecords, lastAt]

/-! ## Tables represent histories -/

/-- A table is what operations have led to: at each position stands what they recorded there last,
and its positions strictly increase. -/
structure LeftBy (ops : List Operation) (table : Resolutions) : Prop where
  get?_eq : ∀ p, table.get? p = lastAt ops p
  sorted : table.Sorted

namespace LeftBy

theorem empty : LeftBy [] Resolutions.empty :=
  ⟨fun _ => rfl, sorted_empty⟩

theorem perform (h : LeftBy ops table) (op : Operation) :
    LeftBy (ops ++ [op]) (table.perform op).2 := by
  cases op with
  | record p symbol =>
      refine ⟨fun q => ?_, h.sorted.record p symbol⟩
      rw [lastAt_concat_record, ← h.get?_eq]
      exact get?_record table p q symbol
  | get p =>
      refine ⟨fun q => ?_, h.sorted⟩
      rw [lastAt_concat_get, ← h.get?_eq]
      rfl

theorem run (h : LeftBy before table) (ops : List Operation) :
    LeftBy (before ++ ops) (table.run ops).2 := by
  induction ops generalizing before table with
  | nil =>
      rw [List.append_nil]
      exact h
  | cons op ops ih =>
      -- the first operation belongs to the history that the other ones go on from
      rw [List.append_cons]
      exact ih (h.perform op)

/-! ## Listings -/

theorem nodup (h : LeftBy ops table) : (table.entries.map Prod.fst).Nodup := by
  refine List.pairwise_map.mpr (h.sorted.imp fun {a b} hlt heq => ?_)
  exact Position.lt_irrefl _ (heq ▸ hlt)

theorem mem_entries_iff (h : LeftBy ops table) :
    (p, symbol) ∈ table.entries ↔ table.get? p = some symbol :=
  (lookup_eq_some_iff_mem h.nodup).symm

/-- A table lists the positions at which something was recorded. -/
theorem mem_positions_iff (h : LeftBy ops table) :
    p ∈ table.entries.map Prod.fst ↔ p ∈ positions ops := by
  rw [← not_iff_not, ← lastAt_eq_none_iff, ← h.get?_eq]
  simp [Option.eq_none_iff_forall_ne_some, ← h.mem_entries_iff]

theorem size_eq (h : LeftBy ops table) : table.size = (positions ops).toFinset.card := by
  have hpositions : (table.entries.map Prod.fst).toFinset = (positions ops).toFinset := by
    ext p
    rw [List.mem_toFinset, List.mem_toFinset, h.mem_positions_iff]
  rw [← hpositions, List.toFinset_card_of_nodup h.nodup, List.length_map, size]

/-- There is one list of what was last recorded at each position, with the positions in order. -/
theorem entries_unique (h : LeftBy ops table)
    (hordered : stored.Pairwise fun a b => a.1 < b.1)
    (hmem : ∀ p symbol, (p, symbol) ∈ stored ↔ lastAt ops p = some symbol) :
    stored = table.entries := by
  have : Std.Asymm fun a b : Position × Symbol => a.1 < b.1 := ⟨fun _ _ => Position.lt_asymm⟩
  refine hordered.eq_of_mem_iff h.sorted fun (p, symbol) => ?_
  rw [hmem, h.mem_entries_iff, h.get?_eq]

theorem unique (h : LeftBy ops table) (h' : LeftBy others table')
    (hsame : ∀ p, lastAt others p = lastAt ops p) : table' = table := by
  refine congrArg Resolutions.mk (h.entries_unique h'.sorted fun p symbol => ?_)
  rw [h'.mem_entries_iff, h'.get?_eq, hsame]

end LeftBy

/-! ## Tables in no order -/

/-- A table that keeps its entries in no particular order: each position once, with what operations
recorded there last. -/
structure Stores (ops : List Operation) (stored : List (Position × Symbol)) : Prop where
  distinct : (stored.map Prod.fst).Nodup
  lookup_eq : ∀ p, stored.lookup p = lastAt ops p

theorem Stores.mergeSort_eq (hs : Stores ops stored) (h : LeftBy ops table) :
    (stored.mergeSort fun a b => decide (a.1 ≤ b.1)) = table.entries := by
  refine h.entries_unique ?_ fun p symbol => ?_
  · refine pairwise_mergeSort_of_nodup (fun p q => decide (p ≤ q)) ?_ ?_ ?_ hs.distinct
    · simpa using fun p q r => @Position.le_trans p q r
    · simpa using Position.le_total
    · simpa using @Position.lt_of_le_of_ne
  · rw [List.mem_mergeSort, ← lookup_eq_some_iff_mem hs.distinct, hs.lookup_eq]

/-! ## The table -/

/-- The last record at a position stands.  After operations on an empty table, and whenever they
look at a position, what was recorded there last is found, if anything was.  The size is the number
of positions at which something was recorded, and the table is empty if it is zero.  The entries are
what is found at these positions, one for each, and the positions strictly increase.  They are the
same for all operations that record the same at each position in the end, in whatever order these
visit the positions; and they are what a table in no order has once it is sorted by position. -/
theorem last_record_stands {ops : List Operation} {answers : List Answer} {table : Resolutions}
    (h : empty.run ops = (answers, table)) :
    (∀ before p after, ops = before ++ .get p :: after →
      answers[before.length]? = some (.found (lastAt before p))) ∧
    (∀ p, table.get? p = lastAt ops p) ∧
    table.size = (positions ops).toFinset.card ∧ (table.isEmpty = true ↔ table.size = 0) ∧
    (∀ p symbol, (p, symbol) ∈ table.entries ↔ table.get? p = some symbol) ∧
    (∀ p, p ∈ table.entries.map Prod.fst ↔ p ∈ positions ops) ∧
    table.entries.Pairwise (fun a b => a.1 < b.1) ∧
    (∀ others, (∀ p, lastAt others p = lastAt ops p) → (empty.run others).2 = table) ∧
    ∀ stored, Stores ops stored →
      (stored.mergeSort fun a b => decide (a.1 ≤ b.1)) = table.entries := by
  have hleft (ops : List Operation) : LeftBy ops (empty.run ops).2 := LeftBy.empty.run ops
  have htable : LeftBy ops table := by
    have hrun := hleft ops
    rwa [h] at hrun
  refine ⟨?_, htable.get?_eq, htable.size_eq, ?_, fun _ _ => htable.mem_entries_iff,
    fun _ => htable.mem_positions_iff, htable.sorted,
    fun others hsame => htable.unique (hleft others) hsame, fun _ hs => hs.mergeSort_eq htable⟩
  · rintro before p after rfl
    have hfound : (empty.run before).2.get? p = lastAt before p := (hleft before).get?_eq p
    rw [run_append] at h
    rw [← (Prod.mk.inj h).1, List.getElem?_append_right (length_run _ _).le, length_run,
      Nat.sub_self, ← hfound]
    rfl
  · rw [isEmpty, List.isEmpty_iff, size, List.length_eq_zero_iff]

/-- Something is recorded again at a position, after it was looked at and another was recorded
before it. -/
theorem last_record_stands_of_rerecorded :
    let ops : List Operation := [.record ⟨2, 1⟩ (.var .int none), .get ⟨1, 5⟩, .get ⟨2, 1⟩,
      .record ⟨1, 5⟩ (.var .int none), .record ⟨2, 1⟩ (.var .bool none), .get ⟨2, 1⟩]
    let others : List Operation := [.record ⟨2, 1⟩ (.var .bool none),
      .record ⟨1, 5⟩ (.var .int none)]
    empty.run ops = ([.done, .found none, .found (some (.var .int none)), .done, .done,
        .found (some (.var .bool none))],
      ⟨[(⟨1, 5⟩, .var .int none), (⟨2, 1⟩, .var .bool none)]⟩) ∧
    (positions ops).toFinset.card = 2 ∧ (empty.run others).2 = (empty.run ops).2 ∧
    ([(⟨2, 1⟩, .var .bool none), (⟨1, 5⟩, .var .int none)].mergeSort
      fun a b => decide (a.1 ≤ b.1)) = (empty.run ops).2.entries := by
  intro ops others
  have hrun : empty.run ops = ([.done, .found none, .found (some (.var .int none)), .done, .done,
      .found (some (.var .bool none))],
      ⟨[(⟨1, 5⟩, .var .int none), (⟨2, 1⟩, .var .bool none)]⟩) := rfl
  have hlast (p : Position) : lastAt ops p =
      [(⟨1, 5⟩, Symbol.var .int none), (⟨2, 1⟩, .var .bool none)].lookup p :=
    ((LeftBy.empty.run ops).get?_eq p).symm
  have hlast' (p : Position) : lastAt others p = lastAt ops p := by
    rw [hlast]
    exact ((LeftBy.empty.run others).get?_eq p).symm
  obtain ⟨-, -, hsize, -, -, -, -, hothers, hstored⟩ := last_record_stands hrun
  refine ⟨hrun, hsize.symm, hothers others hlast', hstored _ ⟨by decide, fun p => ?_⟩⟩
  rw [hlast]
  exact lookup_perm (.swap _ _ []) (by decide) p

end NameCheck.Resolutions
