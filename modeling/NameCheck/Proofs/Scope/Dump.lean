import Mathlib.Data.List.Sort
import NameCheck.Proofs.Listings
import NameCheck.Proofs.Scope.History
import NameCheck.Symbol.Basic

/-!
# Dumps are canonical

The dump of a scope stack depends on what its scopes bind and on nothing else.  In each scope every
name is bound once, so that there is only one list of its bindings in the order of the bytes of the
names; in which order the names were declared, or the bindings are kept, cannot be seen.
-/

namespace NameCheck

open ScopeStack (Operation)

variable {σ : Type}

namespace Frame

variable {frame frame' other : Frame σ} {name : String} {symbol : σ}
  {bindings bindings' : List (String × σ)} {text : σ → String}

/-- Every name is bound at most once. -/
def Distinct (frame : Frame σ) : Prop :=
  (frame.entries.map Prod.fst).Nodup

instance (frame : Frame σ) : Decidable frame.Distinct :=
  inferInstanceAs (Decidable (frame.entries.map Prod.fst).Nodup)

theorem Distinct.empty : (empty : Frame σ).Distinct :=
  List.nodup_nil

theorem Distinct.declare? (h : frame.Distinct) (hd : frame.declare? name symbol = some frame') :
    frame'.Distinct := by
  obtain ⟨hfree, rfl⟩ := declare?_eq_some_iff.mp hd
  refine List.nodup_cons.mpr ⟨fun hmem => ?_, h⟩
  obtain ⟨entry, hentry, rfl⟩ := List.mem_map.mp hmem
  have hbound := (lookup_eq_some_iff_mem h).mpr hentry
  rw [lookup, hbound] at hfree
  cases hfree

/-- A replacement keeps the names where they are. -/
theorem names_of_replaceIn? (h : replaceIn? name symbol bindings = some bindings') :
    bindings'.map Prod.fst = bindings.map Prod.fst := by
  induction bindings generalizing bindings' with
  | nil => cases h
  | cons entry entries ih =>
      rw [replaceIn?] at h
      split at h
      · rename_i heq
        cases h
        rw [List.map_cons, List.map_cons, ← heq]
      · obtain ⟨others, hothers, rfl⟩ := Option.map_eq_some_iff.mp h
        rw [List.map_cons, List.map_cons, ih hothers]

theorem Distinct.replace? (h : frame.Distinct) (hr : frame.replace? name symbol = some frame') :
    frame'.Distinct := by
  obtain ⟨entries, hentries, rfl⟩ := Option.map_eq_some_iff.mp hr
  rw [Distinct, names_of_replaceIn? hentries]
  exact h

/-! ## Listings -/

/-- A list has the bindings of a frame, and their names strictly increase in the order of their
bytes. -/
structure Lists (frame : Frame σ) (bindings : List (String × σ)) : Prop where
  mem_iff : ∀ name symbol, (name, symbol) ∈ bindings ↔ frame.lookup name = some symbol
  ordered : bindings.Pairwise fun a b => Text.bytes a.1 < Text.bytes b.1

theorem Distinct.lists_of_perm (h : frame.Distinct) (hperm : bindings.Perm frame.entries)
    (hordered : bindings.Pairwise fun a b => Text.bytes a.1 < Text.bytes b.1) :
    frame.Lists bindings where
  mem_iff _ _ := hperm.mem_iff.trans (lookup_eq_some_iff_mem h).symm
  ordered := hordered

theorem Distinct.lists_sorted (h : frame.Distinct) : frame.Lists frame.sorted := by
  refine h.lists_of_perm (List.mergeSort_perm _ _) ?_
  exact pairwise_mergeSort_of_nodup Text.byteLe (fun _ _ _ => Text.byteLe_trans) Text.byteLe_total
    Text.bytes_lt_of_byteLe h

/-- Bindings as they read in a dump. -/
def reading (text : σ → String) (bindings : List (String × σ)) : List (String × String) :=
  bindings.map fun (name, symbol) => (name, text symbol)

theorem Lists.mem_reading_iff (h : frame.Lists bindings) {words : String} :
    (name, words) ∈ reading text bindings ↔ (frame.lookup name).map text = some words := by
  simp only [reading, List.mem_map, Prod.mk.injEq, Option.map_eq_some_iff]
  constructor
  · rintro ⟨⟨_, symbol⟩, hmem, rfl, rfl⟩
    exact ⟨symbol, (h.mem_iff _ _).mp hmem, rfl⟩
  · rintro ⟨symbol, hlookup, rfl⟩
    exact ⟨(name, symbol), (h.mem_iff _ _).mpr hlookup, rfl, rfl⟩

theorem Lists.ordered_reading (h : frame.Lists bindings) :
    (reading text bindings).Pairwise fun a b => Text.bytes a.1 < Text.bytes b.1 :=
  List.pairwise_map.mpr h.ordered

/-- Two frames bind the same names, and to symbols that read the same. -/
def ReadsLike (text : σ → String) (frame other : Frame σ) : Prop :=
  ∀ name, (frame.lookup name).map text = (other.lookup name).map text

theorem Lists.reading_eq (hb : frame.Lists bindings) (hb' : other.Lists bindings')
    (h : ReadsLike text frame other) : reading text bindings = reading text bindings' := by
  have : Std.Asymm fun a b : String × String => Text.bytes a.1 < Text.bytes b.1 :=
    ⟨fun _ _ => List.lt_asymm⟩
  refine hb.ordered_reading.eq_of_mem_iff hb'.ordered_reading fun (name, words) => ?_
  rw [hb.mem_reading_iff, hb'.mem_reading_iff, h]

/-- The line of bindings between braces. -/
def row (readings : List (String × String)) : String :=
  "\x7b" ++ ", ".intercalate (readings.map fun (name, words) => name ++ "=" ++ words) ++ "\x7d\n"

theorem dumpWith_eq_row (text : σ → String) (frame : Frame σ) :
    frame.dumpWith text = row (reading text frame.sorted) := by
  simp only [dumpWith, row, reading, List.map_map, Function.comp_def]

/-- There is one listing of a frame, and it is the line of the frame. -/
theorem Lists.dumpWith_eq_row (hb : frame.Lists bindings) (h : frame.Distinct)
    (text : σ → String) : frame.dumpWith text = row (reading text bindings) := by
  rw [Frame.dumpWith_eq_row, h.lists_sorted.reading_eq hb fun _ => rfl]

/-- The line of a frame depends on how its bindings read alone. -/
theorem Distinct.dumpWith_eq (h : frame.Distinct) (h' : other.Distinct)
    (hread : ReadsLike text frame other) : frame.dumpWith text = other.dumpWith text := by
  rw [dumpWith_eq_row, dumpWith_eq_row, h.lists_sorted.reading_eq h'.lists_sorted hread]

/-! ## Changes of frames that read the same -/

theorem ReadsLike.lookup_eq_none_iff (h : ReadsLike text frame other) (name : String) :
    frame.lookup name = none ↔ other.lookup name = none := by
  rw [← Option.map_eq_none_iff (f := text), h, Option.map_eq_none_iff]

/-- The same symbol is written for the same name, or nothing in either frame. -/
theorem ReadsLike.rel {written written' : Option (Frame σ)} (h : ReadsLike text frame other)
    (hnone : written = none ↔ written' = none)
    (hl : ∀ frame', written = some frame' →
      ∀ key, frame'.lookup key = if key = name then some symbol else frame.lookup key)
    (hl' : ∀ other', written' = some other' →
      ∀ key, other'.lookup key = if key = name then some symbol else other.lookup key) :
    Option.Rel (ReadsLike text) written written' := by
  cases written with
  | none =>
      rw [hnone.mp rfl]
      exact .none
  | some frame' =>
      cases written' with
      | none => cases hnone.mpr rfl
      | some other' =>
          refine .some fun key => ?_
          rw [hl frame' rfl, hl' other' rfl]
          split
          · rfl
          · exact h key

theorem ReadsLike.declare? (h : ReadsLike text frame other) (name : String) (symbol : σ) :
    Option.Rel (ReadsLike text) (frame.declare? name symbol) (other.declare? name symbol) := by
  refine h.rel ?_ (fun _ => lookup_of_declare?) fun _ => lookup_of_declare?
  rw [declare?_eq_none_iff, declare?_eq_none_iff, Option.isSome_iff_ne_none,
    Option.isSome_iff_ne_none, ne_eq, ne_eq, h.lookup_eq_none_iff]

theorem ReadsLike.replace? (h : ReadsLike text frame other) (name : String) (symbol : σ) :
    Option.Rel (ReadsLike text) (frame.replace? name symbol) (other.replace? name symbol) := by
  refine h.rel ?_ (fun _ => lookup_of_replace?) fun _ => lookup_of_replace?
  rw [replace?_eq_none_iff, replace?_eq_none_iff, h.lookup_eq_none_iff]

end Frame

namespace ScopeStack

variable {stack other : ScopeStack σ} {frame : Frame σ} {outer : List (Frame σ)}

/-! ## Every name once in each scope -/

/-- In every scope each name is bound at most once. -/
def Distinct (stack : ScopeStack σ) : Prop :=
  ∀ frame ∈ stack.frames, frame.Distinct

theorem distinct_cons :
    (ScopeStack.mk (frame :: outer)).Distinct ↔ frame.Distinct ∧ (ScopeStack.mk outer).Distinct :=
  List.forall_mem_cons

theorem Distinct.new : (new : ScopeStack σ).Distinct :=
  distinct_cons.mpr ⟨Frame.Distinct.empty, List.forall_mem_nil _⟩

theorem Distinct.settle_add (h : stack.Distinct) (name : Option String) (symbol : Option σ) :
    (stack.settle (stack.add name symbol)).2.Distinct := by
  rcases stack.add_cases name symbol with
    ⟨error, herror⟩ | ⟨name, symbol, frame, frame', outer, rfl, rfl, rfl, hd, hok⟩
  · rw [herror]
    exact h
  · rw [hok]
    obtain ⟨hframe, houter⟩ := distinct_cons.mp h
    exact distinct_cons.mpr ⟨hframe.declare? hd, houter⟩

theorem Distinct.perform (h : stack.Distinct) (op : Operation σ) :
    (stack.perform op).2.Distinct := by
  cases op with
  | add name symbol => exact h.settle_add name symbol
  | declare name symbol => exact h.settle_add name symbol
  | push => exact distinct_cons.mpr ⟨Frame.Distinct.empty, h⟩
  | pop =>
      obtain ⟨frames⟩ := stack
      cases frames with
      | nil => exact h
      | cons frame outer => exact (distinct_cons.mp h).2
  | lookupLocal name => exact h
  | lookup name => exact h
  | overwrite name symbol =>
      obtain ⟨frames⟩ := stack
      cases frames with
      | nil => exact h
      | cons frame outer =>
          cases hr : frame.replace? name symbol with
          | none =>
              simp only [ScopeStack.perform, replaceLocal, hr, Option.map_none, settleReplaced]
              exact h
          | some frame' =>
              simp only [ScopeStack.perform, replaceLocal, hr, Option.map_some, settleReplaced]
              obtain ⟨hframe, houter⟩ := distinct_cons.mp h
              exact distinct_cons.mpr ⟨hframe.replace? hr, houter⟩

theorem Distinct.run (h : stack.Distinct) (ops : List (Operation σ)) :
    (stack.run ops).2.Distinct := by
  induction ops generalizing stack with
  | nil => exact h
  | cons op ops ih => exact ih (h.perform op)

/-! ## Stacks that read the same -/

/-- Two stacks have the same number of scopes, and these read the same one by one. -/
def ReadsLike (text : σ → String) (stack other : ScopeStack σ) : Prop :=
  List.Forall₂ (Frame.ReadsLike text) stack.frames other.frames

variable {text : σ → String}

theorem ReadsLike.refl (text : σ → String) (stack : ScopeStack σ) : ReadsLike text stack stack :=
  List.forall₂_same.mpr fun _ _ _ => rfl

theorem ReadsLike.settle_add (h : ReadsLike text stack other) (name : Option String)
    (symbol : Option σ) : ReadsLike text (stack.settle (stack.add name symbol)).2
      (other.settle (other.add name symbol)).2 := by
  obtain ⟨frames⟩ := stack
  obtain ⟨others⟩ := other
  cases h with
  | nil => exact .nil
  | @cons frame frame₂ outer outer₂ hframe houter =>
      cases name with
      | none => cases symbol <;> exact .cons hframe houter
      | some name =>
          cases symbol with
          | none => exact .cons hframe houter
          | some symbol =>
              have hrel := hframe.declare? name symbol
              simp only [add]
              generalize frame.declare? name symbol = declared at hrel ⊢
              generalize frame₂.declare? name symbol = declared₂ at hrel ⊢
              cases hrel with
              | none => exact .cons hframe houter
              | some hdeclared => exact .cons hdeclared houter

theorem ReadsLike.settle_replace (h : ReadsLike text stack other) (name : String) (symbol : σ) :
    ReadsLike text (stack.settleReplaced (stack.replaceLocal name symbol)).2
      (other.settleReplaced (other.replaceLocal name symbol)).2 := by
  obtain ⟨frames⟩ := stack
  obtain ⟨others⟩ := other
  cases h with
  | nil => exact .nil
  | @cons frame frame₂ outer outer₂ hframe houter =>
      have hrel := hframe.replace? name symbol
      simp only [replaceLocal]
      generalize frame.replace? name symbol = replaced at hrel ⊢
      generalize frame₂.replace? name symbol = replaced₂ at hrel ⊢
      cases hrel with
      | none => exact .cons hframe houter
      | some hreplaced => exact .cons hreplaced houter

/-- Stacks that read the same still do so after the same operation. -/
theorem ReadsLike.perform (h : ReadsLike text stack other) (op : Operation σ) :
    ReadsLike text (stack.perform op).2 (other.perform op).2 := by
  cases op with
  | add name symbol => exact h.settle_add name symbol
  | declare name symbol => exact h.settle_add name symbol
  | push => exact .cons (fun _ => rfl) h
  | pop =>
      obtain ⟨frames⟩ := stack
      obtain ⟨others⟩ := other
      cases h with
      | nil => exact .nil
      | cons hframe houter => exact houter
  | lookupLocal name => exact h
  | lookup name => exact h
  | overwrite name symbol => exact h.settle_replace name symbol

theorem ReadsLike.run (h : ReadsLike text stack other) (ops : List (Operation σ)) :
    ReadsLike text (stack.run ops).2 (other.run ops).2 := by
  induction ops generalizing stack other with
  | nil => exact h
  | cons op ops ih => exact ih (h.perform op)

/-- The dump of a stack depends on how its scopes read alone. -/
theorem ReadsLike.dumpWith_eq (h : ReadsLike text stack other) (hs : stack.Distinct)
    (ho : other.Distinct) : stack.dumpWith text = other.dumpWith text := by
  have hrows : stack.frames.map (Frame.dumpWith text) = other.frames.map (Frame.dumpWith text) := by
    obtain ⟨frames⟩ := stack
    obtain ⟨others⟩ := other
    replace h : List.Forall₂ (Frame.ReadsLike text) frames others := h
    induction h with
    | nil => rfl
    | cons hframe _ ih =>
        obtain ⟨hs, hs'⟩ := distinct_cons.mp hs
        obtain ⟨ho, ho'⟩ := distinct_cons.mp ho
        exact congrArg₂ List.cons (hs.dumpWith_eq ho hframe) (ih hs' ho')
  exact congrArg (fun rows => "=== Sym Table ===\n" ++ String.join rows) hrows

/-! ## Declarations in another order -/

/-- The operations that declare names in the innermost scope. -/
def declarations (decls : List (String × σ)) : List (Operation σ) :=
  decls.map fun (name, symbol) => .declare name symbol

theorem run_declarations_nil (decls : List (String × σ)) :
    ((ScopeStack.mk []).run (declarations decls)).2 = ⟨[]⟩ := by
  induction decls with
  | nil => rfl
  | cons decl decls ih => exact ih

/-- A name keeps its symbol if the scope has bound it before, and has the one it is first declared
with otherwise. -/
theorem run_declarations (frame : Frame σ) (outer : List (Frame σ)) (decls : List (String × σ)) :
    ∃ frame', ((ScopeStack.mk (frame :: outer)).run (declarations decls)).2 = ⟨frame' :: outer⟩ ∧
      ∀ name, frame'.lookup name = (frame.lookup name).or (decls.lookup name) := by
  induction decls generalizing frame with
  | nil => exact ⟨frame, rfl, fun name => (Option.or_none).symm⟩
  | cons decl decls ih =>
      obtain ⟨name, symbol⟩ := decl
      cases hd : frame.declare? name symbol with
      | none =>
          obtain ⟨frame', hrun, hlookup⟩ := ih frame
          refine ⟨frame', ?_, fun key => ?_⟩
          · rw [← hrun]
            simp [declarations, ScopeStack.run, ScopeStack.perform, declare, add, hd, settle]
          · rw [hlookup, List.lookup_cons]
            by_cases hkey : key = name
            · subst hkey
              obtain ⟨found, hfound⟩ :=
                Option.isSome_iff_exists.mp (Frame.declare?_eq_none_iff.mp hd)
              rw [hfound, Option.some_or, Option.some_or]
            · rw [beq_false_of_ne hkey]
      | some declared =>
          obtain ⟨frame', hrun, hlookup⟩ := ih declared
          refine ⟨frame', ?_, fun key => ?_⟩
          · rw [← hrun]
            simp [declarations, ScopeStack.run, ScopeStack.perform, declare, add, hd, settle]
          · rw [hlookup, Frame.lookup_of_declare? hd, List.lookup_cons]
            by_cases hkey : key = name
            · subst hkey
              rw [if_pos rfl, (Frame.declare?_eq_some_iff.mp hd).1, beq_self_eq_true]
              rfl
            · rw [if_neg hkey, beq_false_of_ne hkey]

theorem ReadsLike.of_declarations_perm (stack : ScopeStack σ) {decls decls' : List (String × σ)}
    (hperm : decls.Perm decls') (hnodup : (decls.map Prod.fst).Nodup) :
    ReadsLike text (stack.run (declarations decls)).2 (stack.run (declarations decls')).2 := by
  obtain ⟨frames⟩ := stack
  cases frames with
  | nil =>
      rw [run_declarations_nil, run_declarations_nil]
      exact .refl text _
  | cons frame outer =>
      obtain ⟨frame', hrun, hlookup⟩ := run_declarations frame outer decls
      obtain ⟨frame'', hrun', hlookup'⟩ := run_declarations frame outer decls'
      rw [hrun, hrun']
      refine .cons (fun name => ?_) (ReadsLike.refl text ⟨outer⟩)
      rw [hlookup, hlookup', lookup_perm hperm hnodup]

/-! ## The dump -/

/-- A stack whose frames have their bindings in other orders. -/
theorem readsLike_of_orders {orders : List (List (String × σ))} (h : stack.Distinct)
    (horders : List.Forall₂ (fun frame order => order.Perm frame.entries) stack.frames orders) :
    ReadsLike text stack ⟨orders.map Frame.mk⟩ ∧
      (ScopeStack.mk (orders.map Frame.mk)).Distinct := by
  obtain ⟨frames⟩ := stack
  replace horders : List.Forall₂ (fun frame order => order.Perm frame.entries) frames orders :=
    horders
  induction horders with
  | nil => exact ⟨.nil, List.forall_mem_nil _⟩
  | @cons frame order outer orders hperm _ ih =>
      obtain ⟨hframe, houter⟩ := distinct_cons.mp h
      obtain ⟨hlike, hdistinct⟩ := ih houter
      have horder : (Frame.mk order).Distinct := (hperm.map Prod.fst).nodup_iff.mpr hframe
      refine ⟨.cons (fun name => ?_) hlike, distinct_cons.mpr ⟨horder, hdistinct⟩⟩
      exact congrArg (Option.map text) (lookup_perm hperm.symm hframe name)

theorem Distinct.exists_listings (h : stack.Distinct) :
    ∃ listings, List.Forall₂ Frame.Lists stack.frames listings ∧ stack.dumpWith text =
      "=== Sym Table ===\n" ++
        String.join (listings.map fun bindings => Frame.row (Frame.reading text bindings)) := by
  refine ⟨stack.frames.map Frame.sorted, ?_, ?_⟩
  · rw [List.forall₂_map_right_iff]
    exact List.forall₂_same.mpr fun frame hframe => (h frame hframe).lists_sorted
  · have hrows : stack.frames.map (Frame.dumpWith text) = (stack.frames.map Frame.sorted).map
        fun bindings => Frame.row (Frame.reading text bindings) := by
      rw [List.map_map]
      exact List.map_congr_left fun frame _ => frame.dumpWith_eq_row text
    exact congrArg (fun rows => "=== Sym Table ===\n" ++ String.join rows) hrows

/-- The dump is canonical.  Of every stack it lists the scopes from the inside to the outside, one
in a line, and in the line of a scope each of its bindings once, in the order of the bytes of the
names.  It is the same in whatever order the frames have their bindings, for all operations that
lead to bindings which read the same, and in particular when declarations of different names, one
after another in one scope, change places. -/
theorem dump_canonical (ops : List (Operation Symbol)) :
    (∃ listings, List.Forall₂ Frame.Lists ((new : ScopeStack Symbol).run ops).2.frames listings ∧
      ((new : ScopeStack Symbol).run ops).2.dump = "=== Sym Table ===\n" ++
        String.join (listings.map fun bindings =>
          Frame.row (Frame.reading Symbol.text bindings))) ∧
    (∀ orders, List.Forall₂ (fun frame order => order.Perm frame.entries)
        ((new : ScopeStack Symbol).run ops).2.frames orders →
      (ScopeStack.mk (orders.map Frame.mk)).dump = ((new : ScopeStack Symbol).run ops).2.dump) ∧
    (∀ others, ReadsLike Symbol.text ((new : ScopeStack Symbol).run ops).2
        ((new : ScopeStack Symbol).run others).2 →
      ((new : ScopeStack Symbol).run others).2.dump =
        ((new : ScopeStack Symbol).run ops).2.dump) ∧
    ∀ before decls after, ops = before ++ declarations decls ++ after →
      (decls.map Prod.fst).Nodup → ∀ decls', decls.Perm decls' →
      ((new : ScopeStack Symbol).run (before ++ declarations decls' ++ after)).2.dump =
        ((new : ScopeStack Symbol).run ops).2.dump := by
  have hdistinct (ops : List (Operation Symbol)) : ((new : ScopeStack Symbol).run ops).2.Distinct :=
    Distinct.new.run ops
  refine ⟨(hdistinct ops).exists_listings, fun orders horders => ?_, fun others hlike => ?_, ?_⟩
  · obtain ⟨hlike, horder⟩ := readsLike_of_orders (hdistinct ops) horders
    exact (hlike.dumpWith_eq (hdistinct ops) horder).symm
  · exact (hlike.dumpWith_eq (hdistinct ops) (hdistinct others)).symm
  · rintro before decls after rfl hnodup decls' hperm
    refine (ReadsLike.dumpWith_eq ?_ (hdistinct _) (hdistinct _)).symm
    simp only [run_append]
    exact (ReadsLike.of_declarations_perm _ hperm hnodup).run after

/-- Two names that are declared the other way round are dumped alike, also where one of them was
taken before and an inner scope is open in the end. -/
theorem dump_canonical_of_swapped :
    ((new : ScopeStack Symbol).run [.declare "x" (.var .bool none), .declare "y" (.var .int none),
        .declare "x" (.var .int none), .push]).2.dump =
      "=== Sym Table ===\n\x7b\x7d\n\x7bx=bool, y=int\x7d\n" ∧
    ((new : ScopeStack Symbol).run [.declare "x" (.var .bool none), .declare "x" (.var .int none),
        .declare "y" (.var .int none), .push]).2.dump =
      "=== Sym Table ===\n\x7b\x7d\n\x7bx=bool, y=int\x7d\n" := by
  have hinner : (Frame.empty : Frame Symbol).Lists [] :=
    Frame.Distinct.empty.lists_of_perm .nil .nil
  have hdistinct : (Frame.mk [("y", Symbol.var .int none), ("x", .var .bool none)]).Distinct := by
    decide
  have houter : (Frame.mk [("y", Symbol.var .int none), ("x", .var .bool none)]).Lists
      [("x", .var .bool none), ("y", .var .int none)] :=
    hdistinct.lists_of_perm (.swap _ _ []) (by decide +kernel)
  have hdump : ((new : ScopeStack Symbol).run [.declare "x" (.var .bool none),
      .declare "y" (.var .int none), .declare "x" (.var .int none), .push]).2.dump =
      "=== Sym Table ===\n\x7b\x7d\n\x7bx=bool, y=int\x7d\n" := by
    change "=== Sym Table ===\n" ++ String.join [Frame.dumpWith Symbol.text .empty,
      Frame.dumpWith Symbol.text ⟨[("y", .var .int none), ("x", .var .bool none)]⟩] = _
    rw [hinner.dumpWith_eq_row .empty, houter.dumpWith_eq_row hdistinct]
    decide +kernel
  refine ⟨hdump, Eq.trans ?_ hdump⟩
  exact (dump_canonical _).2.2.2 [.declare "x" (.var .bool none)]
    [("y", .var .int none), ("x", .var .int none)] [.push] rfl (by decide)
    [("x", .var .int none), ("y", .var .int none)] (.swap _ _ [])

end ScopeStack

end NameCheck
