import NameCheck.Proofs.Token.Patterns

/-!
# String literals

What follows the opening quote of a string literal, read as the pattern of string literals reads it
and as the scan for the closing quote reads it.  The two agree: the scan takes the longest tail of
a literal, and finds the closing quote and the bad escapes that are there.
-/

namespace NameCheck

open Segment
open scoped Computability

namespace Pattern

/-- String literals with a closing quote. -/
def closed : Language Char :=
  {['"']} * tails isInLine quote

/-- String literals, closed or not, in which every backslash begins an escape. -/
def clean : Language Char :=
  {['"']} * tails isEscape (1 + quote)

end Pattern

/-! ## Tails of literals -/

section Tails

variable {test : Char → Bool} {c : Char} {cs text : List Char} {L : Language Char}

/-- What follows an opening quote, read from the left to the right. -/
inductive Tail (test : Char → Bool) (ending : Language Char) : List Char → Prop where
  | finish {text : List Char} (h : text ∈ ending) : Tail test ending text
  | plain {c : Char} {cs : List Char} (hc : isPlain c = true) (h : Tail test ending cs) :
      Tail test ending (c :: cs)
  | pair {c : Char} {cs : List Char} (hc : test c = true) (h : Tail test ending cs) :
      Tail test ending ('\\' :: c :: cs)

theorem mem_tails_iff : text ∈ tails test L ↔ Tail test L text := by
  constructor
  · rintro ⟨_, hfront, ending, hending, rfl⟩
    obtain ⟨pieces, rfl, hpieces⟩ := Language.mem_kstar.mp hfront
    clear hfront
    induction pieces with
    | nil => exact .finish hending
    | cons piece pieces ih =>
        have hrest := ih fun other hother => hpieces other (List.mem_cons_of_mem _ hother)
        rcases hpieces piece List.mem_cons_self with ⟨c, hc, rfl⟩ | hpair
        · exact .plain hc hrest
        · obtain ⟨_, ⟨c, hc, rfl⟩, rfl⟩ := mem_singleton_mul.mp hpair
          exact .pair hc hrest
  · intro h
    induction h with
    | finish h => exact ⟨[], Language.nil_mem_kstar _, _, h, rfl⟩
    | @plain c cs hc _ ih =>
        obtain ⟨front, hfront, ending, hending, rfl⟩ := ih
        have hpiece : [c] ∈ oneOf isPlain + {['\\']} * oneOf test := Or.inl ⟨c, hc, rfl⟩
        exact ⟨[c] ++ front, mem_kstar_iff.mpr (Or.inr ⟨_, hpiece, _, hfront, rfl⟩), ending,
          hending, rfl⟩
    | @pair c cs hc _ ih =>
        obtain ⟨front, hfront, ending, hending, rfl⟩ := ih
        have hpiece : ['\\', c] ∈ oneOf isPlain + {['\\']} * oneOf test :=
          Or.inr (mem_singleton_mul.mpr ⟨[c], ⟨c, hc, rfl⟩, rfl⟩)
        exact ⟨['\\', c] ++ front, mem_kstar_iff.mpr (Or.inr ⟨_, hpiece, _, hfront, rfl⟩), ending,
          hending, rfl⟩

theorem quote_cons_mem_iff : '"' :: text ∈ {['"']} * tails test L ↔ Tail test L text := by
  rw [mem_singleton_mul, ← mem_tails_iff]
  simp

theorem Pattern.mem_str :
    '"' :: text ∈ Pattern.str.language ↔ Tail isInLine (1 + Pattern.quote) text :=
  quote_cons_mem_iff

theorem Pattern.mem_closed : '"' :: text ∈ Pattern.closed ↔ Tail isInLine Pattern.quote text :=
  quote_cons_mem_iff

theorem Pattern.mem_clean :
    '"' :: text ∈ Pattern.clean ↔ Tail isEscape (1 + Pattern.quote) text :=
  quote_cons_mem_iff

theorem mem_quote : text ∈ Pattern.quote ↔ text = ['"'] :=
  Iff.rfl

theorem mem_one_add_quote : text ∈ 1 + Pattern.quote ↔ text = [] ∨ text = ['"'] := by
  rw [Language.mem_add, Language.mem_one, mem_quote]

theorem isPlain_iff : isPlain c = true ↔ c ≠ '"' ∧ c ≠ '\\' ∧ c ≠ '\n' := by
  simp [isPlain, and_assoc]

theorem isInLine_iff : isInLine c = true ↔ c ≠ '\n' := by
  simp [isInLine]

namespace Tail

/-- The end of a literal begins with no plain character and no backslash. -/
theorem plain_iff (hL : ∀ text ∈ L, text ∈ 1 + Pattern.quote) (hc : isPlain c = true) :
    Tail test L (c :: cs) ↔ Tail test L cs := by
  obtain ⟨hquote, hslash, -⟩ := isPlain_iff.mp hc
  constructor
  · intro h
    cases h with
    | finish h =>
        rcases mem_one_add_quote.mp (hL _ h) with h | h
        · cases h
        · cases h
          exact absurd rfl hquote
    | plain _ h => exact h
    | pair _ _ => exact absurd rfl hslash
  · exact .plain hc

theorem pair_iff (hL : ∀ text ∈ L, text ∈ 1 + Pattern.quote) :
    Tail test L ('\\' :: c :: cs) ↔ test c = true ∧ Tail test L cs := by
  constructor
  · intro h
    cases h with
    | finish h => rcases mem_one_add_quote.mp (hL _ h) with h | h <;> cases h
    | plain hc _ => exact absurd rfl (isPlain_iff.mp hc).2.1
    | pair hc h => exact ⟨hc, h⟩
  · rintro ⟨hc, h⟩
    exact .pair hc h

theorem ending_iff (h : text ∈ 1 + Pattern.quote) : Tail test L text ↔ text ∈ L := by
  constructor
  · intro htail
    rcases mem_one_add_quote.mp h with rfl | rfl
    · cases htail with
      | finish h => exact h
    · cases htail with
      | finish h => exact h
      | plain hc _ => exact absurd rfl (isPlain_iff.mp hc).1
  · exact .finish

end Tail

end Tails

/-! ## How string literals are scanned -/

section Scanning

variable {c : Char} {cs ys text : List Char}

theorem stringTail_plain (h : isPlain c = true) : stringTail (c :: cs) = c :: stringTail cs := by
  obtain ⟨hquote, hslash, hline⟩ := isPlain_iff.mp h
  cases cs with
  | nil => simp [stringTail, hquote, hslash, hline]
  | cons d ds => simp [stringTail, hquote, hslash, hline]

theorem stringTail_pair (h : isInLine c = true) :
    stringTail ('\\' :: c :: cs) = '\\' :: c :: stringTail cs := by
  rw [stringTail, if_neg (isInLine_iff.mp h)]

theorem stringTail_quote : stringTail ('"' :: cs) = ['"'] := by
  cases cs <;> simp [stringTail]

theorem inspect_plain (h : isPlain c = true) : inspect (c :: cs) = inspect cs := by
  obtain ⟨hquote, hslash, -⟩ := isPlain_iff.mp h
  cases cs <;> simp [inspect, hquote, hslash]

/-- What is scanned after an opening quote is the tail of a string literal. -/
theorem tail_stringTail (cs : List Char) : Tail isInLine (1 + Pattern.quote) (stringTail cs) := by
  have hnil : Tail isInLine (1 + Pattern.quote) [] := .finish (mem_one_add_quote.mpr (Or.inl rfl))
  fun_induction stringTail cs with
  | case1 => exact hnil
  | case2 => exact hnil
  | case3 => exact hnil
  | case4 c cs hc ih => exact .pair (isInLine_iff.mpr hc) ih
  | case5 cs => exact .finish (mem_one_add_quote.mpr (Or.inr rfl))
  | case6 cs => exact hnil
  | case7 c cs hlone hpair hquote hline ih =>
      have hslash : c ≠ '\\' := by
        rintro rfl
        cases cs with
        | nil => exact hlone rfl rfl
        | cons d ds => exact hpair d ds rfl rfl
      exact .plain (isPlain_iff.mpr ⟨hquote, hslash, hline⟩) ih

/-- No longer tail of a string literal comes next than the one that is scanned. -/
theorem length_le_stringTail (h : Tail isInLine (1 + Pattern.quote) ys) (hpre : ys <+: cs) :
    ys.length ≤ (stringTail cs).length := by
  induction h generalizing cs with
  | finish h =>
      rcases mem_one_add_quote.mp h with rfl | rfl
      · exact Nat.zero_le _
      · obtain ⟨rest, rfl⟩ := hpre
        rw [List.singleton_append, stringTail_quote]
  | plain hc _ ih =>
      obtain ⟨rest, rfl⟩ := hpre
      rw [List.cons_append, stringTail_plain hc]
      exact Nat.succ_le_succ (ih (List.prefix_append _ _))
  | pair hc _ ih =>
      obtain ⟨rest, rfl⟩ := hpre
      rw [List.cons_append, List.cons_append, stringTail_pair hc]
      exact Nat.succ_le_succ (Nat.succ_le_succ (ih (List.prefix_append _ _)))

/-- The closing quote is found exactly if the literal has one at its end. -/
theorem inspect_fst_iff (h : Tail isInLine (1 + Pattern.quote) text) :
    (inspect text).1 = true ↔ Tail isInLine Pattern.quote text := by
  have hquote : ∀ ending ∈ Pattern.quote, ending ∈ 1 + Pattern.quote := fun _ => Or.inr
  induction h with
  | finish h =>
      rw [Tail.ending_iff h, mem_quote]
      rcases mem_one_add_quote.mp h with rfl | rfl <;> simp [inspect]
  | plain hc _ ih =>
      rw [Tail.plain_iff hquote hc, inspect_plain hc]
      exact ih
  | pair hc _ ih =>
      rw [Tail.pair_iff hquote, inspect, and_iff_right hc]
      exact ih

/-- A bad escape is found exactly if some pair of the literal is not an escape. -/
theorem inspect_snd_iff (h : Tail isInLine (1 + Pattern.quote) text) :
    (inspect text).2 = false ↔ Tail isEscape (1 + Pattern.quote) text := by
  induction h with
  | finish h =>
      rw [Tail.ending_iff h, iff_true_right h]
      rcases mem_one_add_quote.mp h with rfl | rfl <;> simp [inspect]
  | plain hc _ ih => rw [Tail.plain_iff (fun _ => id) hc, inspect_plain hc, ih]
  | @pair c cs hc _ ih =>
      rw [Tail.pair_iff fun _ => id, inspect, ← ih]
      cases isEscape c <;> simp

end Scanning

end NameCheck
