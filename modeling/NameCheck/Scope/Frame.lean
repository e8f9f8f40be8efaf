import NameCheck.Text.Utf8

/-!
# Frames

A frame binds names to symbols, each name at most once.  It is the unit of which scope stacks are
made, and by itself the field table of a struct.
-/

namespace NameCheck

/-- The bindings of one scope, the latest first. -/
structure Frame (σ : Type) where
  entries : List (String × σ)
deriving Repr

namespace Frame

variable {σ : Type}

/-- A frame without bindings. -/
def empty : Frame σ := ⟨[]⟩

/-- The symbol that a name is bound to. -/
def lookup (frame : Frame σ) (name : String) : Option σ :=
  frame.entries.lookup name

/-- Binds a name that is not bound yet. -/
def declare? (frame : Frame σ) (name : String) (symbol : σ) : Option (Frame σ) :=
  match frame.lookup name with
  | some _ => none
  | none => some ⟨(name, symbol) :: frame.entries⟩

/-- Changes the symbol of a name in a list of bindings that has the name. -/
def replaceIn? (name : String) (symbol : σ) : List (String × σ) → Option (List (String × σ))
  | [] => none
  | entry :: entries =>
    if name = entry.1 then some ((name, symbol) :: entries)
    else (replaceIn? name symbol entries).map (entry :: ·)

/-- Binds a bound name to another symbol. -/
def replace? (frame : Frame σ) (name : String) (symbol : σ) : Option (Frame σ) :=
  (replaceIn? name symbol frame.entries).map Frame.mk

/-- The bindings in the order of the bytes of their names. -/
def sorted (frame : Frame σ) : List (String × σ) :=
  frame.entries.mergeSort fun a b => Text.byteLe a.1 b.1

/-- The bindings in one line between braces, each symbol written by `text`. -/
def dumpWith (text : σ → String) (frame : Frame σ) : String :=
  "\x7b" ++ ", ".intercalate (frame.sorted.map fun (name, symbol) => name ++ "=" ++ text symbol)
    ++ "\x7d\n"

/-! ## Lookups -/

@[simp]
theorem lookup_empty (name : String) : (empty : Frame σ).lookup name = none := rfl

theorem declare?_eq_some_iff {frame frame' : Frame σ} {name : String} {symbol : σ} :
    frame.declare? name symbol = some frame' ↔
      frame.lookup name = none ∧ frame' = ⟨(name, symbol) :: frame.entries⟩ := by
  unfold declare?
  cases frame.lookup name <;> simp [eq_comm]

theorem declare?_eq_none_iff {frame : Frame σ} {name : String} {symbol : σ} :
    frame.declare? name symbol = none ↔ (frame.lookup name).isSome := by
  unfold declare?
  cases frame.lookup name <;> simp

theorem lookup_cons (entry : String × σ) (entries : List (String × σ)) (name : String) :
    (Frame.mk (entry :: entries)).lookup name =
      if name = entry.1 then some entry.2 else (Frame.mk entries).lookup name := by
  obtain ⟨key, symbol⟩ := entry
  unfold lookup
  rw [List.lookup_cons]
  by_cases h : name = key
  · simp [h]
  · rw [if_neg h, beq_false_of_ne h]

/-- A declaration adds its own name and leaves the others as they are. -/
theorem lookup_of_declare? {frame frame' : Frame σ} {name : String} {symbol : σ}
    (h : frame.declare? name symbol = some frame') (other : String) :
    frame'.lookup other = if other = name then some symbol else frame.lookup other := by
  obtain ⟨_, rfl⟩ := declare?_eq_some_iff.1 h
  exact lookup_cons _ _ _

/-- A replacement changes the symbol of its own name and leaves the others as they are. -/
theorem lookup_of_replace? {frame frame' : Frame σ} {name : String} {symbol : σ}
    (h : frame.replace? name symbol = some frame') (other : String) :
    frame'.lookup other = if other = name then some symbol else frame.lookup other := by
  obtain ⟨entries⟩ := frame
  obtain ⟨entries', h', rfl⟩ := Option.map_eq_some_iff.1 h
  induction entries generalizing entries' with
  | nil => cases h'
  | cons entry entries ih =>
    rw [replaceIn?] at h'
    by_cases hn : name = entry.1
    · rw [if_pos hn] at h'
      obtain rfl := Option.some.inj h'
      rw [lookup_cons, lookup_cons, ← hn]
      by_cases ho : other = name <;> simp [ho]
    · rw [if_neg hn] at h'
      obtain ⟨tail, ht, rfl⟩ := Option.map_eq_some_iff.1 h'
      rw [lookup_cons, lookup_cons, ih tail ht (Option.map_eq_some_iff.2 ⟨tail, ht, rfl⟩)]
      by_cases ho : other = entry.1
      · rw [if_pos ho, if_pos ho, if_neg fun e => hn (e.symm.trans ho)]
      · rw [if_neg ho, if_neg ho]

theorem replace?_eq_none_iff {frame : Frame σ} {name : String} {symbol : σ} :
    frame.replace? name symbol = none ↔ frame.lookup name = none := by
  obtain ⟨entries⟩ := frame
  simp only [replace?, Option.map_eq_none_iff]
  induction entries with
  | nil => simp [replaceIn?, lookup]
  | cons entry entries ih =>
    rw [replaceIn?, lookup_cons]
    by_cases hn : name = entry.1
    · simp [hn]
    · simp [hn, ih]

end Frame

end NameCheck
