import Mathlib.Computability.Language
import Mathlib.Data.List.Nodup
import NameCheck.Token.Segment

/-!
# Patterns

The patterns that segments are cut by, as regular languages over characters.  A string literal is a
quote, then plain characters of its line or pairs of a backslash and a character of its line, and
a closing quote if one follows.  A text that a pattern matches begins with a character of the
pattern's own class, so that few patterns compete at one place.
-/

namespace NameCheck

open Segment
open scoped Computability

/-- The texts of one character for which a test succeeds. -/
def oneOf (test : Char → Bool) : Language Char :=
  {text | ∃ c, test c = true ∧ text = [c]}

/-- What segments are cut by. -/
inductive Pattern where
  | blank
  | comment
  | keyword (word : Keyword)
  | sign (mark : Sign)
  | name
  | int
  | str
deriving DecidableEq, Repr

/-- Any character of a line. -/
def isInLine (c : Char) : Bool :=
  c ≠ '\n'

/-- A character of a line that has no meaning of its own in a string literal. -/
def isPlain (c : Char) : Bool :=
  c != '"' && c != '\\' && c != '\n'

/-- What follows the opening quote of a string literal: plain characters and pairs of a backslash
and a character that passes a test, with an end of some language. -/
def tails (test : Char → Bool) (ending : Language Char) : Language Char :=
  (oneOf isPlain + {['\\']} * oneOf test)∗ * ending

namespace Pattern

/-- The closing quote of a string literal. -/
def quote : Language Char :=
  {['"']}

/-- The texts that a pattern matches. -/
def language : Pattern → Language Char
  | .blank => oneOf isBlank * (oneOf isBlank)∗
  | .comment => ({['/', '/']} + {['#']}) * (oneOf isInLine)∗
  | .keyword w => {w.text.toList}
  | .sign s => {s.text.toList}
  | .name => oneOf isNameStart * (oneOf isNamePart)∗
  | .int => oneOf Char.isDigit * (oneOf Char.isDigit)∗
  | .str => {['"']} * tails isInLine (1 + quote)

end Pattern

/-! ## Runs of characters -/

section Runs

variable {test test' : Char → Bool} {c : Char} {cs text : List Char} {L M : Language Char}

theorem mem_kstar_iff : text ∈ L∗ ↔ text = [] ∨ text ∈ L * L∗ := by
  rw [← Language.one_add_self_mul_kstar_eq_kstar, Language.mem_add, Language.mem_one,
    Language.one_add_self_mul_kstar_eq_kstar]

theorem nil_not_mem_oneOf_mul : [] ∉ oneOf test * L := by
  rintro ⟨_, ⟨c, -, rfl⟩, ys, -, happend⟩
  cases happend

theorem cons_mem_oneOf_mul : c :: cs ∈ oneOf test * L ↔ test c = true ∧ cs ∈ L := by
  rw [Language.mem_mul]
  constructor
  · rintro ⟨_, ⟨d, hd, rfl⟩, ys, hys, happend⟩
    cases happend
    exact ⟨hd, hys⟩
  · rintro ⟨hc, hcs⟩
    exact ⟨[c], ⟨c, hc, rfl⟩, cs, hcs, rfl⟩

theorem mem_kstar_oneOf : text ∈ (oneOf test)∗ ↔ ∀ c ∈ text, test c = true := by
  induction text with
  | nil => simp [Language.nil_mem_kstar]
  | cons c cs ih => simp [mem_kstar_iff, cons_mem_oneOf_mul, ih]

theorem cons_mem_run :
    c :: cs ∈ oneOf test * (oneOf test')∗ ↔ test c = true ∧ ∀ d ∈ cs, test' d = true := by
  rw [cons_mem_oneOf_mul, mem_kstar_oneOf]

theorem mem_singleton_mul {word : List Char} :
    text ∈ {word} * L ↔ ∃ cs ∈ L, text = word ++ cs := by
  rw [Language.mem_mul]
  constructor
  · rintro ⟨_, rfl, cs, hcs, rfl⟩
    exact ⟨cs, hcs, rfl⟩
  · rintro ⟨cs, hcs, rfl⟩
    exact ⟨word, rfl, cs, hcs, rfl⟩

/-- Of the runs that a text begins with, `takeWhile` is the longest. -/
theorem length_le_takeWhile {ys : List Char} (hys : ∀ d ∈ ys, test d = true) (h : ys <+: cs) :
    ys.length ≤ (cs.takeWhile test).length := by
  obtain ⟨zs, rfl⟩ := h
  rw [List.takeWhile_append_of_pos hys, List.length_append]
  exact Nat.le_add_right _ _

theorem of_mem_takeWhile (hc : c ∈ cs.takeWhile test) : test c = true :=
  List.all_eq_true.mp List.all_takeWhile c hc

end Runs

/-! ## First characters -/

/-- The classes of characters that tell apart how segments begin. -/
inductive CharClass where
  | blank
  | letter
  | digit
  | quote
  | other
deriving DecidableEq, Repr

namespace CharClass

/-- The class of a character. -/
def of (c : Char) : CharClass :=
  if isBlank c then .blank
  else if isNameStart c then .letter
  else if c.isDigit then .digit
  else if c = '"' then .quote
  else .other

variable {c : Char}

theorem isBlank_iff :
    isBlank c = true ↔ c = ' ' ∨ c = '\t' ∨ c = '\r' ∨ c = '\n' ∨ c = '\x0c' := by
  simp [isBlank, or_assoc]

theorem isNameStart_iff : isNameStart c = true ↔ c.isAlpha = true ∨ c = '_' := by
  simp [isNameStart]

theorem of_isBlank (h : isBlank c = true) : of c = .blank :=
  if_pos h

theorem of_isNameStart (h : isNameStart c = true) : of c = .letter := by
  have hblank : ¬isBlank c = true := by
    intro hblank
    rcases isBlank_iff.mp hblank with rfl | rfl | rfl | rfl | rfl <;> exact absurd h (by decide)
  rw [of, if_neg hblank, if_pos h]

theorem not_isAlpha_of_isDigit (h : c.isDigit = true) : ¬c.isAlpha = true := by
  have hle : c.val ≤ '9'.val := of_decide_eq_true (Bool.and_eq_true_iff.mp h).2
  intro halpha
  rcases Bool.or_eq_true_iff.mp halpha with hupper | hlower
  · have hge : 'A'.val ≤ c.val := (of_decide_eq_true hupper).1
    exact absurd (UInt32.le_trans hge hle) (by decide)
  · have hge : 'a'.val ≤ c.val := of_decide_eq_true (Bool.and_eq_true_iff.mp hlower).1
    exact absurd (UInt32.le_trans hge hle) (by decide)

theorem of_isDigit (h : c.isDigit = true) : of c = .digit := by
  have hblank : ¬isBlank c = true := by
    intro hblank
    rcases isBlank_iff.mp hblank with rfl | rfl | rfl | rfl | rfl <;> exact absurd h (by decide)
  have hname : ¬isNameStart c = true := by
    intro hname
    rcases isNameStart_iff.mp hname with halpha | rfl
    · exact not_isAlpha_of_isDigit h halpha
    · exact absurd h (by decide)
  rw [of, if_neg hblank, if_neg hname, if_pos h]

theorem of_cases (c : Char) :
    isBlank c = true ∨ isNameStart c = true ∨ c.isDigit = true ∨ c = '"' ∨ of c = .other := by
  by_cases hblank : isBlank c = true
  · exact Or.inl hblank
  by_cases hname : isNameStart c = true
  · exact Or.inr (Or.inl hname)
  by_cases hdigit : c.isDigit = true
  · exact Or.inr (Or.inr (Or.inl hdigit))
  by_cases hquote : c = '"'
  · exact Or.inr (Or.inr (Or.inr (Or.inl hquote)))
  · rw [of, if_neg hblank, if_neg hname, if_neg hdigit, if_neg hquote]
    exact Or.inr (Or.inr (Or.inr (Or.inr rfl)))

end CharClass

/-! ## Words and signs -/

namespace Keyword

/-- A reserved word is written like a name. -/
theorem text_mem_name (w : Keyword) : w.text.toList ∈ Pattern.name.language := by
  cases w <;> exact cons_mem_run.mpr ⟨rfl, List.all_eq_true.mp rfl⟩

theorem mem_all (w : Keyword) : w ∈ all := by
  cases w <;> decide

theorem text_injective {w w' : Keyword} (h : w.text = w'.text) : w = w' := by
  have hnodup : (all.map text).Nodup := by decide
  exact List.inj_on_of_nodup_map hnodup w.mem_all w'.mem_all h

end Keyword

namespace Sign

variable {s : Sign} {text : List Char}

theorem exists_text (s : Sign) :
    ∃ c cs, s.text.toList = c :: cs ∧ CharClass.of c = .other ∧ c ≠ '#' ∧ (c = '/' → cs = []) := by
  cases s <;> exact ⟨_, _, rfl, by decide⟩

theorem lineFeed_not_mem_text (s : Sign) : '\n' ∉ s.text.toList := by
  cases s <;> decide

theorem mem_all (s : Sign) : s ∈ all := by
  cases s <;> decide

theorem text_injective {s s' : Sign} (h : s.text = s'.text) : s = s' := by
  have hnodup : (all.map Sign.text).Nodup := by decide
  exact List.inj_on_of_nodup_map hnodup s.mem_all s'.mem_all h

/-- The sign at the start of a text is the longest that fits there. -/
theorem longest_of_atStart? (h : atStart? text = some s) :
    s.text.toList <+: text ∧
      ∀ t : Sign, t.text.toList <+: text → t.text.toList.length ≤ s.text.toList.length := by
  obtain ⟨hfits, before, after, hall, hbefore⟩ := List.find?_eq_some_iff_append.mp h
  refine ⟨List.isPrefixOf_iff_prefix.mp hfits, fun t ht => ?_⟩
  have hsorted : all.Pairwise fun a b => b.text.toList.length ≤ a.text.toList.length := by decide
  have hmem := t.mem_all
  rw [hall] at hmem hsorted
  obtain ⟨-, hafter, -⟩ := List.pairwise_append.mp hsorted
  rcases List.mem_append.mp hmem with hmem | hmem
  · have hnot := hbefore t hmem
    rw [List.isPrefixOf_iff_prefix.mpr ht] at hnot
    cases hnot
  · rcases List.mem_cons.mp hmem with rfl | hmem
    · exact Nat.le_refl _
    · exact (List.pairwise_cons.mp hafter).1 t hmem

theorem atStart?_eq_none_iff : atStart? text = none ↔ ∀ s : Sign, ¬s.text.toList <+: text := by
  simp only [atStart?, List.find?_eq_none, List.isPrefixOf_iff_prefix]
  exact ⟨fun h s => h s s.mem_all, fun h s _ => h s⟩

end Sign

namespace Pattern

variable {pattern other : Pattern} {c : Char} {cs ys tail rest text : List Char}

theorem mem_comment : c :: cs ∈ comment.language ↔
    (c = '#' ∧ ∀ d ∈ cs, isInLine d = true) ∨
      c = '/' ∧ ∃ ds, cs = '/' :: ds ∧ ∀ d ∈ ds, isInLine d = true := by
  rw [language, Language.mem_mul]
  constructor
  · rintro ⟨_, rfl | rfl, ds, hds, happend⟩
    · cases happend
      exact Or.inr ⟨rfl, ds, rfl, mem_kstar_oneOf.mp hds⟩
    · cases happend
      exact Or.inl ⟨rfl, mem_kstar_oneOf.mp hds⟩
  · rintro (⟨rfl, hcs⟩ | ⟨rfl, ds, rfl, hds⟩)
    · exact ⟨['#'], Or.inr rfl, cs, mem_kstar_oneOf.mpr hcs, rfl⟩
    · exact ⟨['/', '/'], Or.inl rfl, ds, mem_kstar_oneOf.mpr hds, rfl⟩

theorem mem_keyword {w : Keyword} : text ∈ (keyword w).language ↔ text = w.text.toList :=
  Iff.rfl

theorem mem_sign {s : Sign} : text ∈ (sign s).language ↔ text = s.text.toList :=
  Iff.rfl

/-- The class of the characters that the matches of a pattern begin with. -/
def charClass : Pattern → CharClass
  | .blank => .blank
  | .keyword _ | .name => .letter
  | .int => .digit
  | .str => .quote
  | .comment | .sign _ => .other

/-- No other pattern begins with characters of the same class. -/
def IsAlone (pattern : Pattern) : Prop :=
  ∀ other : Pattern, other.charClass = pattern.charClass → other = pattern

theorem isAlone_blank : blank.IsAlone := by
  intro other h
  cases other with
  | blank => rfl
  | _ => cases h

theorem isAlone_int : int.IsAlone := by
  intro other h
  cases other with
  | int => rfl
  | _ => cases h

theorem isAlone_str : str.IsAlone := by
  intro other h
  cases other with
  | str => rfl
  | _ => cases h

theorem eq_name_or_keyword (h : pattern.charClass = .letter) :
    pattern = .name ∨ ∃ w, pattern = .keyword w := by
  cases pattern with
  | name => exact Or.inl rfl
  | keyword w => exact Or.inr ⟨w, rfl⟩
  | _ => cases h

theorem eq_comment_or_sign (h : pattern.charClass = .other) :
    pattern = .comment ∨ ∃ s, pattern = .sign s := by
  cases pattern with
  | comment => exact Or.inl rfl
  | sign s => exact Or.inr ⟨s, rfl⟩
  | _ => cases h

theorem nil_not_mem (pattern : Pattern) : [] ∉ pattern.language := by
  cases pattern with
  | blank => exact nil_not_mem_oneOf_mul
  | comment =>
      rintro ⟨_, rfl | rfl, cs, -, happend⟩ <;> cases happend
  | keyword w =>
      intro h
      cases w <;> cases h
  | sign s =>
      intro h
      cases s <;> cases h
  | name => exact nil_not_mem_oneOf_mul
  | int => exact nil_not_mem_oneOf_mul
  | str =>
      intro h
      obtain ⟨cs, -, happend⟩ := mem_singleton_mul.mp h
      cases happend

theorem exists_cons (h : text ∈ pattern.language) : ∃ c cs, text = c :: cs := by
  apply List.exists_cons_of_ne_nil
  rintro rfl
  exact pattern.nil_not_mem h

theorem charClass_of_mem (h : c :: cs ∈ pattern.language) :
    CharClass.of c = pattern.charClass := by
  cases pattern with
  | blank => exact CharClass.of_isBlank (cons_mem_run.mp h).1
  | comment => rcases mem_comment.mp h with ⟨rfl, -⟩ | ⟨rfl, -⟩ <;> rfl
  | keyword w =>
      have hname := w.text_mem_name
      rw [← mem_keyword.mp h] at hname
      exact CharClass.of_isNameStart (cons_mem_run.mp hname).1
  | sign s =>
      obtain ⟨d, ds, htext, hclass, -⟩ := s.exists_text
      rw [mem_sign, htext] at h
      cases h
      exact hclass
  | name => exact CharClass.of_isNameStart (cons_mem_run.mp h).1
  | int => exact CharClass.of_isDigit (cons_mem_run.mp h).1
  | str =>
      obtain ⟨tail, -, htail⟩ := mem_singleton_mul.mp h
      cases htail
      rfl

end Pattern

end NameCheck
