import NameCheck.Proofs.Token.Longest
import NameCheck.Proofs.Token.Places

/-!
# Tokens are read back

The texts of the tokens of a source, with a space between them, are cut into these tokens again,
and nothing is reported.  A space ends every token, and no token that a source yields has a text
that is cut in another way.
-/

namespace NameCheck

open Segment

/-- Tokens as text: what each is written as, with a space between them. -/
def Token.display (tokens : List Token) : String :=
  " ".intercalate (tokens.map Token.text)

/-! ## The tokens that sources yield -/

/-- A token that some source yields, told by its text. -/
inductive Token.Written : Token → Prop where
  | keyword (w : Keyword) : Token.Written (.keyword w)
  | sign (s : Sign) : Token.Written (.sign s)
  | name {text : List Char} (h : text ∈ Pattern.name.language)
      (hfree : ∀ w : Keyword, text ≠ w.text.toList) : Token.Written (.name (String.ofList text))
  | int {value : Nat} (h : value ≤ maxInt) : Token.Written (.int value)
  | str {tail : List Char} (hclosed : Tail isInLine Pattern.quote tail)
      (hclean : Tail isEscape (1 + Pattern.quote) tail) :
      Token.Written (.str (String.ofList ('"' :: tail)))

namespace Segment

variable {segment : Segment} {text rest : List Char} {token : Token}

theorem Fits.written (h : segment.Fits rest) (htoken : segment.token? = some token) :
    token.Written := by
  cases h with
  | illegal h => cases htoken
  | @matched pattern text kind hmatches hmeans =>
      cases hmeans with
      | keyword =>
          obtain rfl := Option.some.inj htoken
          exact .keyword _
      | sign =>
          obtain rfl := Option.some.inj htoken
          exact .sign _
      | name =>
          obtain rfl := Option.some.inj htoken
          refine .name hmatches.mem fun w hw => ?_
          rcases hmatches.preferred (.keyword w) hw with hname | ⟨hname, -⟩ <;> cases hname
      | int hle =>
          obtain rfl := Option.some.inj htoken
          exact .int hle
      | hugeInt hlt =>
          obtain rfl := Option.some.inj htoken
          exact .int (Nat.le_refl maxInt)
      | str hclosed hclean =>
          obtain rfl := Option.some.inj htoken
          obtain ⟨tail, -, rfl⟩ := mem_singleton_mul.mp hclosed
          exact .str (Pattern.mem_closed.mp hclosed) (Pattern.mem_clean.mp hclean)
      | _ => cases htoken

theorem Cuts.written {segments : List Segment} (h : Cuts text segments)
    (hmem : token ∈ segments.filterMap token?) : token.Written := by
  induction h with
  | nil => cases hmem
  | @cons segment rest segments hfits _ ih =>
      rw [List.filterMap_cons] at hmem
      split at hmem
      · exact ih hmem
      · rename_i other hother
        rcases List.mem_cons.mp hmem with rfl | hmem
        · exact hfits.written hother
        · exact ih hmem

end Segment

/-! ## What ends a token -/

/-- The text is at its end or goes on with a space. -/
def IsApart (rest : List Char) : Prop :=
  ∀ c, rest.head? = some c → c = ' '

namespace IsApart

variable {rest tail : List Char} {test : Char → Bool}

theorem nil : IsApart [] := by
  intro c h
  cases h

theorem space (rest : List Char) : IsApart (' ' :: rest) := by
  intro c h
  exact (Option.some.inj h).symm

theorem takeWhile_append (h : IsApart rest) (htest : test ' ' = false)
    (htail : ∀ d ∈ tail, test d = true) : (tail ++ rest).takeWhile test = tail := by
  rw [List.takeWhile_append_of_pos htail]
  cases rest with
  | nil => rw [List.takeWhile_nil, List.append_nil]
  | cons c rest =>
      obtain rfl := h c rfl
      rw [List.takeWhile_cons_of_neg (Bool.eq_false_iff.mp htest), List.append_nil]

end IsApart

/-- A closed string literal ends at its closing quote. -/
theorem stringTail_append {tail : List Char} (h : Tail isInLine Pattern.quote tail)
    (rest : List Char) : stringTail (tail ++ rest) = tail := by
  induction h with
  | finish h =>
      rw [mem_quote.mp h, List.singleton_append, stringTail_quote]
  | plain hc _ ih => rw [List.cons_append, stringTail_plain hc, ih]
  | pair hc _ ih => rw [List.cons_append, List.cons_append, stringTail_pair hc, ih]

namespace Segment

variable {c : Char} {tail rest text : List Char}

theorem scan_word_append (h : c :: tail ∈ Pattern.name.language) (hrest : IsApart rest) :
    scan c (tail ++ rest) = (wordKind (c :: tail), tail) := by
  obtain ⟨hc, htail⟩ := cons_mem_run.mp h
  rw [scan_word hc, hrest.takeWhile_append (by decide) htail]

theorem scan_number_append (h : c :: tail ∈ Pattern.int.language) (hrest : IsApart rest) :
    scan c (tail ++ rest) = (numberKind (c :: tail), tail) := by
  obtain ⟨hc, htail⟩ := cons_mem_run.mp h
  rw [scan_number hc, hrest.takeWhile_append (by decide) htail]

theorem scan_sign_append (s : Sign) (h : s.text.toList = c :: tail) (hrest : IsApart rest) :
    scan c (tail ++ rest) = (.token (.sign s), tail) := by
  cases rest with
  | nil => cases s <;> cases h <;> rfl
  | cons d rest =>
      obtain rfl := hrest d rfl
      cases s <;> cases h <;> rfl

theorem wordKind_keyword (w : Keyword) : wordKind w.text.toList = .token (.keyword w) := by
  cases w <;> rfl

theorem wordKind_name (h : ∀ w : Keyword, text ≠ w.text.toList) :
    wordKind text = .token (.name (String.ofList text)) := by
  have hnone : Keyword.ofText? (String.ofList text) = none := by
    apply List.find?_eq_none.mpr
    intro w _ hw
    apply h w
    rw [beq_iff_eq.mp hw, String.toList_ofList]
  rw [wordKind, hnone]

theorem numberKind_toDigits {value : Nat} (h : value ≤ maxInt) :
    numberKind (Nat.toDigits 10 value) = .token (.int value) := by
  have hdecimal : decimal (Nat.toDigits 10 value) = value := Nat.ofDigitChars_ten_toDigits
  rw [numberKind, hdecimal]
  exact if_pos h

theorem toDigits_mem_int (value : Nat) : Nat.toDigits 10 value ∈ Pattern.int.language := by
  have hdigits : ∀ d ∈ Nat.toDigits 10 value, d.isDigit = true := fun d hd =>
    Nat.isDigit_of_mem_toDigits (by decide) (by decide) hd
  have hne : Nat.toDigits 10 value ≠ [] := Nat.toDigits_ne_nil
  obtain ⟨c, tail, hcons⟩ := List.exists_cons_of_ne_nil hne
  rw [hcons] at hdigits ⊢
  exact cons_mem_run.mpr (List.forall_mem_cons.mp hdigits)

theorem stringKind_closed (hclosed : Tail isInLine Pattern.quote tail)
    (hclean : Tail isEscape (1 + Pattern.quote) tail) :
    stringKind tail = .token (.str (String.ofList ('"' :: tail))) := by
  have htail : Tail isInLine (1 + Pattern.quote) tail := by
    rw [← stringTail_append hclosed []]
    exact tail_stringTail (tail ++ [])
  have hinspect : inspect tail = (true, false) := by
    apply Prod.ext
    · exact (inspect_fst_iff htail).mpr hclosed
    · exact (inspect_snd_iff htail).mpr hclean
  rw [stringKind, hinspect]

end Segment

/-! ## Reading back -/

namespace Token

variable {token : Token} {rest : List Char}

/-- The text of a token that stands apart is scanned as this token. -/
theorem Written.scan_eq (h : token.Written) (hrest : IsApart rest) :
    ∃ c tail, token.text.toList = c :: tail ∧
      scan c (tail ++ rest) = (.token token, tail) := by
  cases h with
  | keyword w =>
      obtain ⟨c, tail, hcons⟩ := Pattern.exists_cons w.text_mem_name
      refine ⟨c, tail, hcons, ?_⟩
      have hname := w.text_mem_name
      rw [hcons] at hname
      rw [scan_word_append hname hrest, ← hcons, wordKind_keyword]
  | sign s =>
      obtain ⟨c, tail, hcons, -⟩ := s.exists_text
      exact ⟨c, tail, hcons, scan_sign_append s hcons hrest⟩
  | name hname hfree =>
      obtain ⟨c, tail, rfl⟩ := Pattern.exists_cons hname
      refine ⟨c, tail, String.toList_ofList, ?_⟩
      rw [scan_word_append hname hrest, wordKind_name hfree]
  | @int value hle =>
      have hdigits := toDigits_mem_int value
      obtain ⟨c, tail, hcons⟩ := Pattern.exists_cons hdigits
      refine ⟨c, tail, ?_, ?_⟩
      · rw [← hcons]
        exact Nat.toList_repr
      · rw [hcons] at hdigits
        rw [scan_number_append hdigits hrest, ← hcons, numberKind_toDigits hle]
  | str hclosed hclean =>
      refine ⟨'"', _, String.toList_ofList, ?_⟩
      rw [scan_quote, stringTail_append hclosed, stringKind_closed hclosed hclean]

/-- The segment of a token, as its text is cut. -/
def segment (token : Token) : Segment :=
  ⟨token.text.toList, .token token⟩

theorem Written.cut_append (h : token.Written) (hrest : IsApart rest) :
    cut (token.text.toList ++ rest) = token.segment :: cut rest := by
  obtain ⟨c, tail, htext, hscan⟩ := h.scan_eq hrest
  rw [segment, htext, List.cons_append, cut, hscan]
  exact congrArg (_ :: ·) (congrArg cut List.drop_left)

/-- No token begins with white space. -/
theorem Written.cut_space (h : token.Written) (hrest : IsApart rest) :
    cut (' ' :: (token.text.toList ++ rest)) =
      ⟨[' '], .blank⟩ :: cut (token.text.toList ++ rest) := by
  obtain ⟨c, tail, htext, hscan⟩ := h.scan_eq hrest
  have hblank : ¬isBlank c = true := by
    intro hblank
    rw [scan_blank hblank] at hscan
    cases hscan
  rw [htext, List.cons_append, cut, scan_blank rfl, List.takeWhile_cons_of_neg hblank]
  rfl

end Token

/-! ## Several tokens -/

/-- The texts of tokens, with a space before each. -/
def spaced (tokens : List Token) : List Char :=
  tokens.flatMap fun token => ' ' :: token.text.toList

theorem isApart_spaced (tokens : List Token) : IsApart (spaced tokens) := by
  cases tokens with
  | nil => exact .nil
  | cons token tokens => exact .space _

theorem intercalate_eq_append_spaced (token : Token) (tokens : List Token) :
    [' '].intercalate ((token :: tokens).map fun token => token.text.toList) =
      token.text.toList ++ spaced tokens := by
  induction tokens generalizing token with
  | nil =>
      rw [List.map_singleton, List.intercalate_singleton, spaced, List.flatMap_nil,
        List.append_nil]
  | cons other tokens ih =>
      rw [List.map_cons, List.map_cons, List.intercalate_cons_cons]
      have hother := ih other
      rw [List.map_cons] at hother
      rw [hother, List.append_assoc]
      rfl

namespace Segment

variable {segment : Segment} {token : Token} {tokens : List Token}

theorem cut_spaced (h : ∀ token ∈ tokens, token.Written) :
    cut (spaced tokens) = tokens.flatMap fun token => [⟨[' '], .blank⟩, token.segment] := by
  induction tokens with
  | nil => rw [spaced, List.flatMap_nil, cut, List.flatMap_nil]
  | cons token tokens ih =>
      obtain ⟨htoken, htokens⟩ := List.forall_mem_cons.mp h
      have hrest := isApart_spaced tokens
      calc
        cut (spaced (token :: tokens)) = cut (' ' :: (token.text.toList ++ spaced tokens)) := rfl
        _ = ⟨[' '], .blank⟩ :: token.segment :: cut (spaced tokens) := by
          rw [htoken.cut_space hrest, htoken.cut_append hrest]
        _ = (token :: tokens).flatMap fun token => [⟨[' '], .blank⟩, token.segment] := by
          rw [ih htokens]
          rfl

/-- The texts of tokens with spaces between them are cut into the tokens and the spaces. -/
theorem cut_intercalate (h : ∀ other ∈ token :: tokens, other.Written) :
    cut ([' '].intercalate ((token :: tokens).map fun token => token.text.toList)) =
      token.segment :: tokens.flatMap fun token => [⟨[' '], .blank⟩, token.segment] := by
  obtain ⟨htoken, htokens⟩ := List.forall_mem_cons.mp h
  rw [intercalate_eq_append_spaced, htoken.cut_append (isApart_spaced tokens), cut_spaced htokens]

theorem filterMap_token?_flatMap (tokens : List Token) :
    (tokens.flatMap fun token => [⟨[' '], .blank⟩, token.segment]).filterMap token? = tokens := by
  induction tokens with
  | nil => rfl
  | cons token tokens ih =>
      rw [List.flatMap_cons, List.filterMap_append, ih]
      rfl

/-- What the texts of tokens are cut into has these tokens, and there is nothing to report. -/
theorem tokens_of_cut_intercalate (h : ∀ token ∈ tokens, token.Written) :
    (cut ([' '].intercalate (tokens.map fun token => token.text.toList))).filterMap token? =
        tokens ∧
      ∀ segment ∈ cut ([' '].intercalate (tokens.map fun token => token.text.toList)),
        ∀ start, segment.diagnostic? start = none := by
  cases tokens with
  | nil =>
      rw [List.map_nil, List.intercalate_nil, cut]
      exact ⟨rfl, fun _ hmem => absurd hmem List.not_mem_nil⟩
  | cons token tokens =>
      rw [cut_intercalate h]
      constructor
      · rw [List.filterMap_cons, filterMap_token?_flatMap]
        rfl
      · intro segment hmem start
        rcases List.mem_cons.mp hmem with rfl | hmem
        · rfl
        · obtain ⟨other, -, hother⟩ := List.mem_flatMap.mp hmem
          rcases List.mem_pair.mp hother with rfl | rfl <;> rfl

end Segment

namespace Tokens

/-- The tokens of a source, displayed and tokenized again, are read back as they are, and nothing is
reported. -/
theorem read_back (source : String) :
    (ofString (Token.display (ofString source).tokens)).tokens = (ofString source).tokens ∧
      (ofString (Token.display (ofString source).tokens)).diagnostics = [] := by
  generalize htokens : (ofString source).tokens = tokens
  have hwritten : ∀ token ∈ tokens, token.Written := by
    intro token hmem
    apply (cuts_cut source.toList).written
    rw [← tokens_ofText, ← ofString, htokens]
    exact hmem
  have htext : (Token.display tokens).toList =
      [' '].intercalate (tokens.map fun token => token.text.toList) := by
    rw [Token.display, String.toList_intercalate, List.map_map]
    rfl
  obtain ⟨hread, hquiet⟩ := tokens_of_cut_intercalate hwritten
  rw [← htext] at hread hquiet
  constructor
  · rw [ofString, tokens_ofText]
    exact hread
  · apply List.filterMap_eq_nil_iff.mpr
    intro piece hpiece
    exact hquiet piece.1 (mem_of_mem_place hpiece) piece.2.start

end Tokens

end NameCheck
