/-!
# Texts as bytes

The UTF-8 length of a text, the characters that fill a given number of its bytes, and the order
of strings by their bytes.  An offset into a text is a boundary when characters end there.
-/

namespace NameCheck.Text

/-- The number of bytes that characters take in UTF-8. -/
def utf8Length : List Char → Nat
  | [] => 0
  | c :: cs => c.utf8Size + utf8Length cs

/-- The characters that fill exactly the first `n` bytes; none when `n` falls inside a character
or beyond the end. -/
def takeBytes? : Nat → List Char → Option (List Char)
  | 0, _ => some []
  | _ + 1, [] => none
  | n + 1, c :: cs =>
    if c.utf8Size ≤ n + 1 then (takeBytes? (n + 1 - c.utf8Size) cs).map (c :: ·) else none

/-- What is left after the first `n` bytes; a character that `n` falls into is dropped too. -/
def dropBytes : Nat → List Char → List Char
  | 0, cs => cs
  | _ + 1, [] => []
  | n + 1, c :: cs => dropBytes (n + 1 - c.utf8Size) cs

/-- The bytes of a string. -/
def bytes (s : String) : List UInt8 :=
  s.toByteArray.data.toList

/-- Strings in the order of their bytes. -/
def byteLe (s t : String) : Bool :=
  decide (bytes s ≤ bytes t)

@[simp]
theorem utf8Length_nil : utf8Length [] = 0 := rfl

@[simp]
theorem utf8Length_cons (c : Char) (cs : List Char) :
    utf8Length (c :: cs) = c.utf8Size + utf8Length cs := rfl

theorem utf8Length_append (cs ds : List Char) :
    utf8Length (cs ++ ds) = utf8Length cs + utf8Length ds := by
  induction cs with
  | nil => simp
  | cons c cs ih => simp [ih, Nat.add_assoc]

/-! ## The order of bytes -/

theorem bytes_inj {s t : String} : bytes s = bytes t ↔ s = t := by
  rw [bytes, bytes, Array.toList_inj, ← ByteArray.ext_iff, String.toByteArray_inj]

theorem byteLe_iff {s t : String} : byteLe s t = true ↔ bytes s ≤ bytes t :=
  decide_eq_true_iff

theorem byteLe_trans {s t u : String} (hst : byteLe s t = true) (htu : byteLe t u = true) :
    byteLe s u = true :=
  byteLe_iff.mpr (List.le_trans (byteLe_iff.mp hst) (byteLe_iff.mp htu))

theorem byteLe_total (s t : String) : (byteLe s t || byteLe t s) = true := by
  rw [Bool.or_eq_true, byteLe_iff, byteLe_iff]
  exact List.le_total (bytes s) (bytes t)

theorem byteLe_antisymm {s t : String} (hst : byteLe s t = true) (hts : byteLe t s = true) :
    s = t :=
  bytes_inj.mp (List.le_antisymm (byteLe_iff.mp hst) (byteLe_iff.mp hts))

/-- Different strings in order are strictly in order. -/
theorem bytes_lt_of_byteLe {s t : String} (h : byteLe s t = true) (hne : s ≠ t) :
    bytes s < bytes t := by
  rw [← List.not_le]
  exact fun hle => hne (byteLe_antisymm h (byteLe_iff.mpr hle))

end NameCheck.Text
