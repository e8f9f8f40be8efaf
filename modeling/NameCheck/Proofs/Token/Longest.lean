import NameCheck.Proofs.Token.Strings

/-!
# Longest matches

At each place of a text the longest match of any pattern is the next segment, a reserved word is
preferred to a name, and where no pattern matches one character is illegal.  These rules determine
the segments of a text, and the segments that it is cut into follow them.
-/

namespace NameCheck

open Segment
open scoped Computability

namespace Pattern

/-- A pattern matches a piece of text where `rest` comes after it: no pattern matches more of the
text there, and another one matches as much only if it is that of names, behind a reserved word. -/
structure Matches (pattern : Pattern) (text rest : List Char) : Prop where
  mem : text ∈ pattern.language
  longest : ∀ other : Pattern, ∀ ys ∈ other.language, ys <+: text ++ rest →
    ys.length ≤ text.length
  preferred : ∀ other : Pattern, text ∈ other.language →
    other = pattern ∨ other = .name ∧ ∃ w, pattern = .keyword w

/-- What a piece of text is that a pattern matches.  A number is kept up to the greatest integer;
a string literal is kept if it is closed and has no bad escape. -/
inductive Means : Pattern → List Char → Kind → Prop where
  | blank {text : List Char} : Means .blank text .blank
  | comment {text : List Char} : Means .comment text .comment
  | keyword {text : List Char} {w : Keyword} : Means (.keyword w) text (.token (.keyword w))
  | sign {text : List Char} {s : Sign} : Means (.sign s) text (.token (.sign s))
  | name {text : List Char} : Means .name text (.token (.name (String.ofList text)))
  | int {text : List Char} (hle : decimal text ≤ maxInt) :
      Means .int text (.token (.int (decimal text)))
  | hugeInt {text : List Char} (hlt : maxInt < decimal text) : Means .int text .hugeInt
  | str {text : List Char} (hclosed : text ∈ closed) (hclean : text ∈ clean) :
      Means .str text (.token (.str (String.ofList text)))
  | badEscape {text : List Char} (hclosed : text ∈ closed) (hclean : text ∉ clean) :
      Means .str text (.rejected .badEscape)
  | unterminated {text : List Char} (hclosed : text ∉ closed) (hclean : text ∈ clean) :
      Means .str text (.rejected .unterminated)
  | unterminatedBadEscape {text : List Char} (hclosed : text ∉ closed) (hclean : text ∉ clean) :
      Means .str text (.rejected .unterminatedBadEscape)

end Pattern

namespace Segment

/-- A segment is the right one where `rest` comes after it: the longest match of a pattern, with its
meaning, or one character at which no pattern matches. -/
inductive Fits (rest : List Char) : Segment → Prop where
  | matched {pattern : Pattern} {text : List Char} {kind : Kind}
      (hmatches : pattern.Matches text rest) (hmeans : pattern.Means text kind) :
      Fits rest ⟨text, kind⟩
  | illegal {c : Char} (h : ∀ pattern : Pattern, ∀ ys ∈ pattern.language, ¬ys <+: c :: rest) :
      Fits rest ⟨[c], .illegal⟩

/-- A text is cut into segments each of which is the right one at its place. -/
inductive Cuts : List Char → List Segment → Prop where
  | nil : Cuts [] []
  | cons {segment : Segment} {rest : List Char} {segments : List Segment}
      (hfits : segment.Fits rest) (h : Cuts rest segments) :
      Cuts (segment.text ++ rest) (segment :: segments)

end Segment

/-! ## The rules determine segments -/

namespace Pattern

variable {pattern other : Pattern} {text text' rest rest' : List Char} {kind kind' : Kind}

theorem Means.unique (h : pattern.Means text kind) (h' : pattern.Means text kind') :
    kind = kind' := by
  cases h with
  | int hle =>
      cases h' with
      | int => rfl
      | hugeInt hlt => exact absurd hle (Nat.not_le.mpr hlt)
  | hugeInt hlt =>
      cases h' with
      | int hle => exact absurd hle (Nat.not_le.mpr hlt)
      | hugeInt => rfl
  | str hclosed hclean | badEscape hclosed hclean | unterminated hclosed hclean
  | unterminatedBadEscape hclosed hclean => cases h' <;> first | rfl | contradiction
  | _ =>
      cases h'
      rfl

theorem Matches.unique (h : pattern.Matches text rest) (h' : other.Matches text' rest')
    (happend : text ++ rest = text' ++ rest') : text = text' ∧ pattern = other := by
  have hpre : text <+: text' ++ rest' := happend ▸ List.prefix_append text rest
  have hpre' : text' <+: text ++ rest := happend ▸ List.prefix_append text' rest'
  have hlength : text.length = text'.length :=
    Nat.le_antisymm (h'.longest pattern text h.mem hpre) (h.longest other text' h'.mem hpre')
  obtain ⟨rfl, -⟩ := List.append_inj happend hlength
  refine ⟨rfl, ?_⟩
  rcases h.preferred other h'.mem with heq | ⟨hname, w, hw⟩
  · exact heq.symm
  · rcases h'.preferred pattern h.mem with heq | ⟨hname', w', hw'⟩
    · exact heq
    · rw [hname'] at hw
      cases hw

end Pattern

namespace Segment

variable {segment segment' : Segment} {rest rest' text : List Char}
  {segments segments' : List Segment}

theorem Fits.text_ne_nil (h : segment.Fits rest) : segment.text ≠ [] := by
  cases h with
  | @matched pattern text kind hmatches hmeans =>
      rintro rfl
      exact pattern.nil_not_mem hmatches.mem
  | illegal h => exact List.cons_ne_nil _ _

theorem not_prefix_of_illegal {c : Char} {pattern : Pattern}
    (hnone : ∀ pattern : Pattern, ∀ ys ∈ pattern.language, ¬ys <+: c :: rest)
    (hmem : text ∈ pattern.language) (happend : text ++ rest' = [c] ++ rest) : False := by
  apply hnone pattern text hmem
  rw [← List.singleton_append, ← happend]
  exact List.prefix_append text rest'

/-- Only one segment is right at a place. -/
theorem Fits.unique (h : segment.Fits rest) (h' : segment'.Fits rest')
    (happend : segment.text ++ rest = segment'.text ++ rest') : segment = segment' := by
  cases h with
  | matched hmatches hmeans =>
      cases h' with
      | matched hmatches' hmeans' =>
          obtain ⟨rfl, rfl⟩ := hmatches.unique hmatches' happend
          rw [hmeans.unique hmeans']
      | illegal hnone => exact (not_prefix_of_illegal hnone hmatches.mem happend).elim
  | illegal hnone =>
      cases h' with
      | matched hmatches' hmeans' =>
          exact (not_prefix_of_illegal hnone hmatches'.mem happend.symm).elim
      | illegal hnone' =>
          cases happend
          rfl

/-- A segment that a pattern matches has a meaning of this pattern.  Names are excepted, since the
reserved words are among them. -/
theorem Fits.means {pattern : Pattern} (h : segment.Fits rest)
    (hmem : segment.text ∈ pattern.language) (hname : pattern ≠ .name) :
    pattern.Means segment.text segment.kind := by
  cases h with
  | matched hmatches hmeans =>
      rcases hmatches.preferred pattern hmem with rfl | ⟨rfl, -⟩
      · exact hmeans
      · exact absurd rfl hname
  | @illegal c hnone => exact (hnone pattern [c] hmem (List.prefix_append [c] rest)).elim

theorem Cuts.eq_nil_of_nil (h : Cuts text []) : text = [] := by
  cases h
  rfl

theorem Cuts.exists_rest (h : Cuts text (segment :: segments)) :
    ∃ rest, text = segment.text ++ rest ∧ segment.Fits rest ∧ Cuts rest segments := by
  cases h with
  | cons hfits h => exact ⟨_, rfl, hfits, h⟩

/-- A text is cut in one way only. -/
theorem Cuts.unique (h : Cuts text segments) (h' : Cuts text segments') : segments = segments' := by
  induction segments generalizing text segments' with
  | nil =>
      obtain rfl := h.eq_nil_of_nil
      cases segments' with
      | nil => rfl
      | cons segment' segments' =>
          obtain ⟨rest', happend, hfits', -⟩ := h'.exists_rest
          exact absurd (List.append_eq_nil_iff.mp happend.symm).1 hfits'.text_ne_nil
  | cons segment segments ih =>
      obtain ⟨rest, rfl, hfits, hrest⟩ := h.exists_rest
      cases segments' with
      | nil => exact absurd (List.append_eq_nil_iff.mp h'.eq_nil_of_nil).1 hfits.text_ne_nil
      | cons segment' segments' =>
          obtain ⟨rest', happend, hfits', hrest'⟩ := h'.exists_rest
          obtain rfl := hfits.unique hfits' happend
          obtain rfl := List.append_cancel_left happend
          rw [ih hrest hrest']

end Segment

/-! ## One place -/

/-- How a comment begins: with a hash sign or with two slashes. -/
def OpensComment (c : Char) (cs : List Char) : Prop :=
  c = '#' ∨ c = '/' ∧ cs.head? = some '/'

namespace Segment

variable {c : Char} {cs : List Char}

theorem scan_blank (h : isBlank c = true) : scan c cs = (.blank, cs.takeWhile isBlank) := by
  rw [scan, if_pos h]

theorem scan_word (h : isNameStart c = true) :
    scan c cs =
      (wordKind (c :: cs.takeWhile isNamePart), cs.takeWhile isNamePart) := by
  have hclass := CharClass.of_isNameStart h
  have hblank : ¬isBlank c = true := mt CharClass.of_isBlank (by simp [hclass])
  rw [scan, if_neg hblank, if_pos h]

theorem scan_number (h : c.isDigit = true) :
    scan c cs =
      (numberKind (c :: cs.takeWhile Char.isDigit), cs.takeWhile Char.isDigit) := by
  have hclass := CharClass.of_isDigit h
  have hblank : ¬isBlank c = true := mt CharClass.of_isBlank (by simp [hclass])
  have hname : ¬isNameStart c = true := mt CharClass.of_isNameStart (by simp [hclass])
  rw [scan, if_neg hblank, if_neg hname, if_pos h]

theorem scan_quote : scan '"' cs = (stringKind (stringTail cs), stringTail cs) :=
  rfl

theorem scan_other (h : CharClass.of c = .other) :
    scan c cs =
      if c = '#' || (c = '/' && cs.head? = some '/') then (.comment, cs.takeWhile isInLine)
      else
        match Sign.atStart? (c :: cs) with
        | some sign => (.token (.sign sign), sign.text.toList.tail)
        | none => (.illegal, []) := by
  have hblank : ¬isBlank c = true := mt CharClass.of_isBlank (by simp [h])
  have hname : ¬isNameStart c = true := mt CharClass.of_isNameStart (by simp [h])
  have hdigit : ¬c.isDigit = true := mt CharClass.of_isDigit (by simp [h])
  have hquote : c ≠ '"' := by
    rintro rfl
    cases h
  rw [scan, if_neg hblank, if_neg hname, if_neg hdigit, if_neg hquote]
  rfl

theorem opensComment_iff :
    (c = '#' || (c = '/' && cs.head? = some '/')) = true ↔ OpensComment c cs := by
  simp [OpensComment]

theorem scan_comment (h : OpensComment c cs) :
    scan c cs = (.comment, cs.takeWhile isInLine) := by
  have hclass : CharClass.of c = .other := by
    rcases h with rfl | ⟨rfl, -⟩ <;> rfl
  rw [scan_other hclass, if_pos (opensComment_iff.mpr h)]

theorem scan_sign {s : Sign} (hclass : CharClass.of c = .other) (hopens : ¬OpensComment c cs)
    (h : Sign.atStart? (c :: cs) = some s) :
    scan c cs = (.token (.sign s), s.text.toList.tail) := by
  rw [scan_other hclass, if_neg (mt opensComment_iff.mp hopens), h]

theorem scan_illegal (hclass : CharClass.of c = .other) (hopens : ¬OpensComment c cs)
    (h : Sign.atStart? (c :: cs) = none) : scan c cs = (.illegal, []) := by
  rw [scan_other hclass, if_neg (mt opensComment_iff.mp hopens), h]

end Segment

/-! ## Cutting follows the rules -/

namespace Pattern

variable {pattern other : Pattern} {c : Char} {cs ys tail rest : List Char}

/-- Only the patterns of one class compete at a place. -/
theorem Matches.of_cons (hmem : c :: tail ∈ pattern.language)
    (hlongest : ∀ other : Pattern, other.charClass = pattern.charClass → ∀ ys,
      c :: ys ∈ other.language → ys <+: tail ++ rest → ys.length ≤ tail.length)
    (hpreferred : ∀ other : Pattern, other.charClass = pattern.charClass →
      c :: tail ∈ other.language → other = pattern ∨ other = .name ∧ ∃ w, pattern = .keyword w) :
    pattern.Matches (c :: tail) rest := by
  have hclass {other : Pattern} {ys : List Char} (h : c :: ys ∈ other.language) :
      other.charClass = pattern.charClass :=
    (charClass_of_mem h).symm.trans (charClass_of_mem hmem)
  refine ⟨hmem, fun other ys hys hpre => ?_, fun other h => hpreferred other (hclass h) h⟩
  cases ys with
  | nil => exact Nat.zero_le _
  | cons d ds =>
      obtain ⟨rfl, htail⟩ := List.cons_prefix_cons.mp hpre
      exact Nat.succ_le_succ (hlongest other (hclass hys) ds hys htail)

/-- A pattern of runs that is the only one of its class matches as far as the run goes. -/
theorem matches_run {first more : Char → Bool}
    (hlanguage : pattern.language = oneOf first * (oneOf more)∗) (hone : pattern.IsAlone)
    (hc : first c = true) (hrest : cs.takeWhile more ++ rest = cs) :
    pattern.Matches (c :: cs.takeWhile more) rest := by
  have hmem : c :: cs.takeWhile more ∈ pattern.language := by
    rw [hlanguage, cons_mem_run]
    exact ⟨hc, fun d hd => of_mem_takeWhile hd⟩
  apply Matches.of_cons hmem
  · intro other hclass ys hys hpre
    rw [hone other hclass, hlanguage, cons_mem_run] at hys
    rw [hrest] at hpre
    exact length_le_takeWhile hys.2 hpre
  · intro other hclass hys
    exact Or.inl (hone other hclass)

theorem mem_name_of_letter (h : other.charClass = .letter) (hmem : c :: ys ∈ other.language) :
    c :: ys ∈ name.language := by
  rcases eq_name_or_keyword h with rfl | ⟨w, rfl⟩
  · exact hmem
  · rw [mem_keyword.mp hmem]
    exact w.text_mem_name

/-- A word goes as far as the characters of names go; if it is no reserved word, it is a name. -/
theorem matches_word (hrest : cs.takeWhile isNamePart ++ rest = cs)
    (hpattern : pattern.charClass = .letter)
    (hmem : c :: cs.takeWhile isNamePart ∈ pattern.language)
    (hname : ∀ w : Keyword, pattern = .name → c :: cs.takeWhile isNamePart ≠ w.text.toList) :
    pattern.Matches (c :: cs.takeWhile isNamePart) rest := by
  apply Matches.of_cons hmem
  · intro other hclass ys hys hpre
    rw [hrest] at hpre
    rw [hpattern] at hclass
    exact length_le_takeWhile (cons_mem_run.mp (mem_name_of_letter hclass hys)).2 hpre
  · intro other hclass hys
    rw [hpattern] at hclass
    rcases eq_name_or_keyword hpattern with rfl | ⟨w, rfl⟩
    · rcases eq_name_or_keyword hclass with rfl | ⟨w, rfl⟩
      · exact Or.inl rfl
      · exact absurd hys (hname w rfl)
    · rcases eq_name_or_keyword hclass with rfl | ⟨w', rfl⟩
      · exact Or.inr ⟨rfl, w, rfl⟩
      · have htext : w'.text.toList = w.text.toList := hys.symm.trans hmem
        rw [Keyword.text_injective (String.toList_injective htext)]
        exact Or.inl rfl

theorem matches_str (hrest : stringTail cs ++ rest = cs) :
    str.Matches ('"' :: stringTail cs) rest := by
  apply Matches.of_cons (mem_str.mpr (tail_stringTail cs))
  · intro other hclass ys hys hpre
    rw [isAlone_str other hclass, mem_str] at hys
    rw [hrest] at hpre
    exact length_le_stringTail hys hpre
  · intro other hclass hys
    exact Or.inl (isAlone_str other hclass)

theorem inLine_of_mem_comment (h : c :: ys ∈ comment.language) : ∀ d ∈ ys, isInLine d = true := by
  rcases mem_comment.mp h with ⟨-, hys⟩ | ⟨-, ds, rfl, hds⟩
  · exact hys
  · exact List.forall_mem_cons.mpr ⟨rfl, hds⟩

theorem opensComment_of_mem (h : c :: ys ∈ comment.language) (hpre : ys <+: cs) :
    OpensComment c cs := by
  rcases mem_comment.mp h with ⟨rfl, -⟩ | ⟨rfl, ds, rfl, -⟩
  · exact Or.inl rfl
  · obtain ⟨zs, rfl⟩ := hpre
    exact Or.inr ⟨rfl, rfl⟩

theorem mem_comment_of_opens (h : OpensComment c cs) :
    c :: cs.takeWhile isInLine ∈ comment.language := by
  have hline : ∀ d ∈ cs.takeWhile isInLine, isInLine d = true := fun d hd => of_mem_takeWhile hd
  rcases h with rfl | ⟨rfl, hhead⟩
  · exact mem_comment.mpr (Or.inl ⟨rfl, hline⟩)
  · obtain ⟨ds, rfl⟩ := List.head?_eq_some_iff.mp hhead
    rw [List.takeWhile_cons_of_pos rfl] at hline ⊢
    exact mem_comment.mpr (Or.inr ⟨rfl, _, rfl, (List.forall_mem_cons.mp hline).2⟩)

/-- Where a comment begins, only the sign of one slash matches beside it. -/
theorem nil_of_opens {s : Sign} (h : OpensComment c cs) (hys : c :: ys ∈ (sign s).language) :
    ys = [] ∧ cs.head? = some '/' := by
  obtain ⟨d, ds, htext, -, hhash, hslash⟩ := s.exists_text
  rw [mem_sign, htext] at hys
  cases hys
  rcases h with rfl | ⟨rfl, hhead⟩
  · exact absurd rfl hhash
  · exact ⟨hslash rfl, hhead⟩

theorem matches_comment (h : OpensComment c cs) (hrest : cs.takeWhile isInLine ++ rest = cs) :
    comment.Matches (c :: cs.takeWhile isInLine) rest := by
  apply Matches.of_cons (mem_comment_of_opens h)
  · intro other hclass ys hys hpre
    rw [hrest] at hpre
    rcases eq_comment_or_sign hclass with rfl | ⟨s, rfl⟩
    · exact length_le_takeWhile (inLine_of_mem_comment hys) hpre
    · rw [(nil_of_opens h hys).1]
      exact Nat.zero_le _
  · intro other hclass hys
    rcases eq_comment_or_sign hclass with rfl | ⟨s, rfl⟩
    · exact Or.inl rfl
    · obtain ⟨hnil, hhead⟩ := nil_of_opens h hys
      obtain ⟨ds, rfl⟩ := List.head?_eq_some_iff.mp hhead
      rw [List.takeWhile_cons_of_pos rfl] at hnil
      cases hnil

theorem matches_sign {s : Sign} (h : Sign.atStart? (c :: cs) = some s)
    (hcomment : ¬OpensComment c cs) (hrest : s.text.toList.tail ++ rest = cs) :
    (sign s).Matches (c :: s.text.toList.tail) rest := by
  obtain ⟨hpre, hlongest⟩ := Sign.longest_of_atStart? h
  have htext : c :: s.text.toList.tail = s.text.toList := by
    obtain ⟨d, ds, htext, -⟩ := s.exists_text
    rw [htext] at hpre ⊢
    rw [(List.cons_prefix_cons.mp hpre).1, List.tail_cons]
  apply Matches.of_cons (mem_sign.mpr htext)
  · intro other hclass ys hys hpre
    rw [hrest] at hpre
    rcases eq_comment_or_sign hclass with rfl | ⟨t, rfl⟩
    · exact absurd (opensComment_of_mem hys hpre) hcomment
    · have hle := hlongest t (hys ▸ List.cons_prefix_cons.mpr ⟨rfl, hpre⟩)
      rw [← mem_sign.mp hys, ← htext] at hle
      exact Nat.le_of_succ_le_succ hle
  · intro other hclass hys
    rcases eq_comment_or_sign hclass with rfl | ⟨t, rfl⟩
    · exact absurd (opensComment_of_mem hys ⟨rest, hrest⟩) hcomment
    · have hsame : t.text.toList = s.text.toList := hys.symm.trans htext
      rw [Sign.text_injective (String.toList_injective hsame)]
      exact Or.inl rfl

end Pattern

namespace Segment

variable {c : Char} {cs tail rest text : List Char}

/-! ### Meanings -/

theorem means_numberKind : Pattern.int.Means text (numberKind text) := by
  rw [numberKind]
  by_cases h : decimal text ≤ maxInt
  · rw [if_pos h]
    exact .int h
  · rw [if_neg h]
    exact .hugeInt (Nat.not_le.mp h)

theorem means_stringKind (h : Tail isInLine (1 + Pattern.quote) tail) :
    Pattern.str.Means ('"' :: tail) (stringKind tail) := by
  have hclosed : '"' :: tail ∈ Pattern.closed ↔ (inspect tail).1 = true := by
    rw [inspect_fst_iff h, Pattern.mem_closed]
  have hclean : '"' :: tail ∈ Pattern.clean ↔ (inspect tail).2 = false := by
    rw [inspect_snd_iff h, Pattern.mem_clean]
  rw [stringKind]
  generalize inspect tail = found at hclosed hclean ⊢
  obtain ⟨isClosed, isBad⟩ := found
  cases isClosed with
  | true =>
      cases isBad with
      | false => exact .str (hclosed.mpr rfl) (hclean.mpr rfl)
      | true => exact .badEscape (hclosed.mpr rfl) fun h => Bool.noConfusion (hclean.mp h)
  | false =>
      have hnot : '"' :: tail ∉ Pattern.closed := fun h => Bool.noConfusion (hclosed.mp h)
      cases isBad with
      | false => exact .unterminated hnot (hclean.mpr rfl)
      | true => exact .unterminatedBadEscape hnot fun h => Bool.noConfusion (hclean.mp h)

/-- A word fits as the reserved word that it is, or as a name. -/
theorem fits_word (hc : isNameStart c = true) (hrest : cs.takeWhile isNamePart ++ rest = cs) :
    Fits rest ⟨c :: cs.takeWhile isNamePart, wordKind (c :: cs.takeWhile isNamePart)⟩ := by
  have hname : c :: cs.takeWhile isNamePart ∈ Pattern.name.language :=
    cons_mem_run.mpr ⟨hc, fun d hd => of_mem_takeWhile hd⟩
  rw [wordKind]
  split
  · rename_i w hw
    have htext := List.find?_some hw
    have hmem : c :: cs.takeWhile isNamePart ∈ (Pattern.keyword w).language := by
      rw [Pattern.mem_keyword, beq_iff_eq.mp htext, String.toList_ofList]
    exact .matched (Pattern.matches_word hrest rfl hmem fun _ h => by cases h) .keyword
  · rename_i hnone
    refine .matched (Pattern.matches_word hrest rfl hname fun w _ heq => ?_) .name
    have hnot := List.find?_eq_none.mp hnone w w.mem_all
    rw [heq, String.ofList_toList] at hnot
    exact hnot (beq_self_eq_true w.text)

/-- Where neither a sign nor a comment begins, nor any other class of segments, nothing matches. -/
theorem fits_illegal (hclass : CharClass.of c = .other) (hcomment : ¬OpensComment c cs)
    (hsign : Sign.atStart? (c :: cs) = none) : Fits cs ⟨[c], .illegal⟩ := by
  refine .illegal fun pattern ys hys hpre => ?_
  cases ys with
  | nil => exact pattern.nil_not_mem hys
  | cons d ds =>
      obtain ⟨rfl, htail⟩ := List.cons_prefix_cons.mp hpre
      rcases Pattern.eq_comment_or_sign ((Pattern.charClass_of_mem hys).symm.trans hclass) with
        rfl | ⟨s, rfl⟩
      · exact hcomment (Pattern.opensComment_of_mem hys htail)
      · rw [Pattern.mem_sign.mp hys] at hpre
        exact Sign.atStart?_eq_none_iff.mp hsign s hpre

/-- What is scanned at a place fits there. -/
theorem fits_scan (hrest : (scan c cs).2 ++ rest = cs) :
    Fits rest ⟨c :: (scan c cs).2, (scan c cs).1⟩ := by
  rcases CharClass.of_cases c with hc | hc | hc | rfl | hclass
  · rw [scan_blank hc] at hrest ⊢
    exact .matched (Pattern.matches_run rfl Pattern.isAlone_blank hc hrest) .blank
  · rw [scan_word hc] at hrest ⊢
    exact fits_word hc hrest
  · rw [scan_number hc] at hrest ⊢
    exact .matched (Pattern.matches_run rfl Pattern.isAlone_int hc hrest) means_numberKind
  · rw [scan_quote] at hrest ⊢
    exact .matched (Pattern.matches_str hrest) (means_stringKind (tail_stringTail cs))
  · by_cases hopens : OpensComment c cs
    · rw [scan_comment hopens] at hrest ⊢
      exact .matched (Pattern.matches_comment hopens hrest) .comment
    · cases hsign : Sign.atStart? (c :: cs) with
      | some s =>
          rw [scan_sign hclass hopens hsign] at hrest ⊢
          exact .matched (Pattern.matches_sign hsign hopens hrest) .sign
      | none =>
          rw [scan_illegal hclass hopens hsign] at hrest ⊢
          obtain rfl : rest = cs := hrest
          exact fits_illegal hclass hopens hsign

theorem cuts_cut (text : List Char) : Cuts text (cut text) := by
  fun_induction cut text with
  | case1 => exact .nil
  | case2 c cs kind tail hscan ih =>
      have hprefix := scan_prefix c cs
      have hrest : (scan c cs).2 ++ cs.drop (scan c cs).2.length = cs :=
        List.prefix_iff_eq_append.mp hprefix
      have hfits := fits_scan hrest
      rw [hscan] at hrest hfits
      have hcuts := Cuts.cons hfits ih
      rwa [List.cons_append, hrest] at hcuts

/-- The segments that a text is cut into are the right ones, and the only ones that are. -/
theorem cuts_iff {segments : List Segment} : Cuts text segments ↔ segments = cut text :=
  ⟨fun h => h.unique (cuts_cut text), fun h => h ▸ cuts_cut text⟩

end Segment

end NameCheck
