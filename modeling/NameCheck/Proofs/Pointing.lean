import NameCheck.Proofs.Grammar.Expectations
import NameCheck.Proofs.Reports
import NameCheck.Proofs.Resolve.Accounting
import NameCheck.Proofs.Resolve.Selections
import NameCheck.Proofs.Token.Pieces

/-!
# Diagnostics point at what they talk about

A position is counted by tokenizing, is handed on by the trees that are read, stands in an error,
and is at last turned into a byte offset.  In the end the text is found there that the diagnostic
is about.
-/

namespace NameCheck

open Grammar Segment

/-- What is reported by a check, whether it succeeds or fails. -/
def reported : Except CheckError Checked → List Diagnostic
  | .ok checked => checked.sink.diagnostics
  | .error error => error.diagnostics

/-- The name that an identifier stands for is read at its position, and fills its own span. -/
def Ident.IsRead (id : Ident) (source : String) : Prop :=
  ⟨.name id.name, ⟨id.pos, id.pos.after id.name.toList⟩⟩ ∈ (Tokens.ofString source).lexemes

/-- Tokenizing cuts a text so that this segment begins at a position. -/
def Segment.BeginsAt (segment : Segment) (source : String) (p : Position) : Prop :=
  ∃ span, (segment, span) ∈ Segment.place .first (Segment.cut source.toList) ∧ span.start = p

/-- `d.TalksAbout source p rest`: if `rest` stands at the position `p` of a text, this is what the
diagnostic is about: an illegal character, the opening quote of a rejected string literal, all
digits of a number that is too large, a name that is misused, the first name of a location from
which a field is selected, the token that was unexpected, or the end of the text. -/
inductive Diagnostic.TalksAbout (source : String) (p : Position) :
    List Char → Diagnostic → Prop where
  | illegal {c : Char} {rest : List Char} (hcut : Segment.BeginsAt ⟨[c], .illegal⟩ source p) :
      TalksAbout source p (c :: rest)
        (.fatal ("illegal character ignored: " ++ String.singleton c) p [])
  | literal {fault : StringFault} {tail rest : List Char}
      (hcut : Segment.BeginsAt ⟨'"' :: tail, .rejected fault⟩ source p) :
      TalksAbout source p ('"' :: (tail ++ rest)) (.fatal fault.message p [])
  | number {digits rest : List Char} (hcut : Segment.BeginsAt ⟨digits, .hugeInt⟩ source p)
      (hdigits : ∀ c ∈ digits, c.isDigit = true) (hall : ∀ c ∈ rest.head?, c.isDigit = false)
      (hlarge : maxInt < decimal digits) :
      TalksAbout source p (digits ++ rest)
        (.warning "integer literal too large; using max value" p)
  | name {error : SemanticError} {id : Ident} {rest : List Char} (hname : error.name? = id.name)
      (herror : error.pos = p) (hid : id.pos = p) (hread : id.IsRead source) :
      TalksAbout source p (id.name.toList ++ rest) error.diagnostic
  | root {checked : Checked} {root field : Ident} {fields : List Ident} {rest : List Char}
      (hcheck : check source = .ok checked)
      (hfield : .member (dots root fields) field ∈ checked.program.occurrences)
      (hroot : root.pos = p) (hread : root.IsRead source) :
      TalksAbout source p (root.name.toList ++ rest)
        (SemanticError.dotAccessOfNonStruct p).diagnostic
  | found {error : SyntaxError} {lexeme : Lexeme} {segment : Segment} {rest : List Char}
      (hreason : error.reason = .unexpected) (hfound : error.found = some lexeme.token)
      (hmem : lexeme ∈ (Tokens.ofString source).lexemes)
      (hspan : error.span = lexeme.span) (hstart : lexeme.span.start = p)
      (htoken : segment.token? = some lexeme.token) (hfits : segment.Fits rest) :
      TalksAbout source p (segment.text ++ rest) error.diagnostic
  | finish {error : SyntaxError} (hreason : error.reason = .unexpected)
      (hfound : error.found = none) (hspan : error.span = .empty p) :
      TalksAbout source p [] error.diagnostic

/-- A diagnostic has a position, and at this position of the text stands what it is about. -/
def Diagnostic.Points (source : String) (d : Diagnostic) : Prop :=
  ∃ p rest, d.position = some p ∧ p.PointsAt source.toList rest ∧ d.TalksAbout source p rest

variable {source : String} {p : Program} {d : Diagnostic}

/-! ## Tokenizing -/

theorem Tokens.points_of_mem (h : d ∈ (ofString source).diagnostics) : d.Points source := by
  obtain ⟨⟨⟨text, kind⟩, span⟩, hplaced, hmem⟩ := List.mem_filterMap.mp h
  have hd : Segment.diagnostic? ⟨text, kind⟩ span.start = some d := hmem
  have hcut : Segment.BeginsAt ⟨text, kind⟩ source span.start := ⟨span, hplaced, rfl⟩
  obtain ⟨rest, hpoints, hfits, -⟩ := pointsAt_of_mem_place hplaced
  refine ⟨span.start, text ++ rest, position_of_diagnostic? hd, hpoints, ?_⟩
  rw [diagnostic?] at hd
  split at hd
  · rename_i hkind
    obtain rfl : kind = .hugeInt := hkind
    cases hd
    obtain ⟨hdigits, hall, hlarge⟩ := hfits.digits rfl
    exact .number hcut hdigits hall hlarge
  · rename_i fault hkind
    obtain rfl : kind = .rejected fault := hkind
    cases hd
    obtain ⟨tail, rfl⟩ := hfits.exists_quote rfl
    exact .literal hcut
  · rename_i hkind
    obtain rfl : kind = .illegal := hkind
    cases hd
    obtain ⟨c, rfl⟩ := hfits.eq_singleton rfl
    exact .illegal hcut
  · cases hd

/-! ## Syntax errors -/

theorem SyntaxError.points {error : SyntaxError}
    (h : Program.parse (Tokens.ofString source).lexemes (Tokens.ofString source).eoi =
      .error error) : error.diagnostic.Points source := by
  obtain ⟨miss, -, rfl⟩ := Parser.parse_error_iff.mp h
  have hat := standsAt_ofMiss (Tokens.ofString source).lexemes (Tokens.ofString source).eoi miss
  cases hk : (Tokens.ofString source).lexemes[(Tokens.ofString source).lexemes.length -
      miss.left]? with
  | some lexeme =>
      have hspan := hat.span
      have hfound := hat.found
      rw [hk] at hspan hfound
      have hmem : lexeme ∈ (Tokens.ofString source).lexemes := List.mem_of_getElem? hk
      obtain ⟨segment, rest, htoken, hfits, hpoints, -⟩ := Tokens.exists_segment_of_mem hmem
      refine ⟨lexeme.span.start, segment.text ++ rest, ?_, hpoints, ?_⟩
      · exact congrArg (fun span : Span => some span.start) hspan
      · exact .found hat.reason hfound hmem hspan rfl htoken hfits
  | none =>
      have hspan := hat.span
      have hfound := hat.found
      rw [hk] at hspan hfound
      refine ⟨(Tokens.ofString source).finish, [], ?_, Tokens.pointsAt_finish _, ?_⟩
      · exact congrArg (fun span : Span => some span.start) hspan
      · exact .finish hat.reason hfound hspan

/-! ## Misuses of names -/

theorem Lexeme.token_of_name {lexeme : Lexeme} {leaf : Leaf} {id : Ident}
    (h : lexeme.leaf? = some leaf) (hname : leaf.name? = some id) :
    lexeme.token = .name id.name := by
  unfold leaf? at h
  split at h <;> cases h <;> cases hname
  assumption

theorem Site.eq_member_of_error {x : Site} {pos : Position}
    (h : .dotAccessOfNonStruct pos ∈ x.errors) : ∃ base field, x = .member pos base field := by
  cases x with
  | use id found => cases found <;> simp [errors] at h
  | member basePos base field =>
      rw [errors] at h
      split at h
      · cases List.mem_singleton.mp h
        exact ⟨base, field, rfl⟩
      · cases List.mem_singleton.mp h
      · cases h
  | typeName name found => cases found <;> simp [errors] at h
  | declared name verdict => cases verdict <;> simp [errors] at h
  | passedOver name => cases h

section Names

variable (h : Program.parse (Tokens.ofString source).lexemes (Tokens.ofString source).eoi = .ok p)
include h

/-- The name of an occurrence is read from a lexeme, which stands where the name occurs. -/
theorem Program.pointsAt_of_occurrence {o : Occurrence} (ho : o ∈ p.occurrences) :
    o.ident.IsRead source ∧
      ∃ rest, o.ident.pos.PointsAt source.toList (o.ident.name.toList ++ rest) := by
  have hid : o.ident ∈ Leaf.names p.leaves := by
    rw [p.names_leaves]
    exact List.mem_map_of_mem ho
  rw [← leaves_of_parse h] at hid
  obtain ⟨leaf, hleaf, hname⟩ := List.mem_filterMap.mp hid
  obtain ⟨lexeme, hlexeme, hleaf⟩ := List.mem_filterMap.mp hleaf
  have hpos : o.ident.pos = lexeme.span.start :=
    (Leaf.pos_of_name? hname).trans (Lexeme.pos_of_leaf? hleaf)
  have htoken : lexeme.token = .name o.ident.name := Lexeme.token_of_name hleaf hname
  obtain ⟨hstop, rest, hpoints⟩ := Tokens.pointsAt_of_name hlexeme htoken
  refine ⟨?_, rest, hpos ▸ hpoints⟩
  rw [Ident.IsRead, hpos, ← htoken, ← hstop]
  exact hlexeme

/-- A selection from what is no struct is reported at the first name of a location, from which a
field is selected. -/
theorem Program.exists_root_of_error {pos : Position}
    (herror : .dotAccessOfNonStruct pos ∈ p.lexical.errors) :
    ∃ root fields field, .member (dots root fields) field ∈ p.occurrences ∧ root.pos = pos ∧
      ∃ o ∈ p.occurrences, o.ident = root := by
  obtain ⟨x, hx, hmem⟩ := List.mem_flatMap.mp herror
  obtain ⟨found, field, rfl⟩ := Site.eq_member_of_error hmem
  obtain ⟨o, ho, hsettles⟩ := exists_settled (occurrences_ordered h) hx
  have hrooted := allRooted_of_parse h o ho
  cases hsettles with
  | member hsites =>
      obtain ⟨root, fields, rfl⟩ := hrooted
      refine ⟨root, fields, field, ho, (pos_dots root fields).symm, ?_⟩
      exact exists_occurrence (hsites (use_mem_sites _ root fields))

theorem SemanticError.points {error : SemanticError} (herror : error ∈ p.lexical.errors) :
    error.diagnostic.Points source := by
  cases hname : error.name? with
  | some name =>
      obtain ⟨o, ho, hname', hpos⟩ := Program.exists_occurrence_of_error herror (by rw [hname]; rfl)
      obtain ⟨hread, rest, hpoints⟩ := Program.pointsAt_of_occurrence h ho
      exact ⟨o.ident.pos, _, congrArg some hpos, hpoints, .name hname' hpos rfl hread⟩
  | none =>
      cases error with
      | dotAccessOfNonStruct pos =>
          obtain ⟨root, fields, field, hfield, rfl, o, ho, rfl⟩ :=
            Program.exists_root_of_error h herror
          obtain ⟨hread, rest, hpoints⟩ := Program.pointsAt_of_occurrence h ho
          exact ⟨o.ident.pos, _, rfl, hpoints, .root (check_of_parse h) hfield rfl hread⟩
      | _ => cases hname

end Names

/-! ## Checks -/

/-- Every diagnostic points at the text that it talks about. -/
theorem check_points (source : String) : ∀ d ∈ reported (check source), d.Points source := by
  intro d hd
  cases h : Program.parse (Tokens.ofString source).lexemes (Tokens.ofString source).eoi with
  | ok p =>
      rw [check_of_parse h, reported, Checked.diagnostics_ofProgram] at hd
      rcases List.mem_append.mp hd with hd | hd
      · exact Tokens.points_of_mem hd
      · obtain ⟨error, herror, rfl⟩ := List.mem_map.mp hd
        exact SemanticError.points h herror
  | error error =>
      rw [check_of_parse_error h] at hd
      rcases List.mem_append.mp hd with hd | hd
      · exact Tokens.points_of_mem hd
      · obtain rfl := List.mem_singleton.mp hd
        exact SyntaxError.points h

/-- A character of two bytes that is dropped, and in the line after it a number that is too large
and a field of a variable that is no struct. -/
theorem check_points_after_illegal :
    Diagnostic.Points "é\nint x; void f() \x7bx.a=99999999999;\x7d"
        (.fatal "illegal character ignored: é" (some ⟨1, 1⟩) []) ∧
      Diagnostic.Points "é\nint x; void f() \x7bx.a=99999999999;\x7d"
        (.warning "integer literal too large; using max value" (some ⟨2, 22⟩)) ∧
      Diagnostic.Points "é\nint x; void f() \x7bx.a=99999999999;\x7d"
        (.fatal "dot-access of non-struct type" (some ⟨2, 18⟩) []) := by
  have hreported : reported (check "é\nint x; void f() \x7bx.a=99999999999;\x7d") =
      [.fatal "illegal character ignored: é" (some ⟨1, 1⟩) [],
        .warning "integer literal too large; using max value" (some ⟨2, 22⟩),
        .fatal "dot-access of non-struct type" (some ⟨2, 18⟩) []] := by
    decide +kernel
  have hpoints := check_points "é\nint x; void f() \x7bx.a=99999999999;\x7d"
  rw [hreported] at hpoints
  exact ⟨hpoints _ List.mem_cons_self, hpoints _ (by simp), hpoints _ (by simp)⟩

end NameCheck
