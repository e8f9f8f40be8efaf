import Mathlib.Data.List.Pairwise
import NameCheck.Proofs.Check
import NameCheck.Proofs.Grammar.Expectations
import NameCheck.Proofs.Grammar.Layout
import NameCheck.Proofs.Resolve.Layout

/-!
# Layout does not matter

Two texts with the same tokens are checked alike, whatever white space and comments stand between
the tokens and whatever is dropped there.  What is found in the one is what is found in the other,
with each place replaced by that of the token with the same index.
-/

namespace NameCheck

variable {f : Position → Position} {ts us : List Lexeme}

/-- `f` takes the places where the tokens of one text begin to those where the tokens of another
text begin, in the same order. -/
def Carries (f : Position → Position) (ts us : List Lexeme) : Prop :=
  us.map (fun u => u.span.start) = ts.map fun t => f t.span.start

/-- What two checks find corresponds: the same program at the places that `f` gives, the same
misuses of names at these places, the same global scope as text, and the same meanings at these
places. -/
structure Checked.Corresponds (f : Position → Position) (a b : Checked) : Prop where
  program : b.program = a.program.relocate f
  errors : b.analysis.errors = a.analysis.errors.map (SemanticError.relocate f)
  dump : b.analysis.scopes.dump = a.analysis.scopes.dump
  resolutions : b.analysis.resolutions.entries =
    a.analysis.resolutions.entries.map (Prod.map f id)

/-- Two texts are checked alike: either both cannot be read, with syntax errors at tokens of one
index and with the same notes, or both checks succeed and what they find corresponds. -/
inductive CheckedAlike (f : Position → Position) (source source' : String) : Prop where
  | rejected {error error' : SyntaxError} {k : Nat}
      (hcheck : check source = .error
        (.syntaxErrors ((Tokens.ofString source).diagnostics ++ [error.diagnostic])))
      (hcheck' : check source' = .error
        (.syntaxErrors ((Tokens.ofString source').diagnostics ++ [error'.diagnostic])))
      (hat : error.StandsAt (Tokens.ofString source).lexemes (Tokens.ofString source).eoi k)
      (hat' : error'.StandsAt (Tokens.ofString source').lexemes (Tokens.ofString source').eoi k)
      (hnotes : error'.diagnostic.notes = error.diagnostic.notes)
  | accepted {checked checked' : Checked} (hcheck : check source = .ok checked)
      (hcheck' : check source' = .ok checked') (h : checked.Corresponds f checked')

/-! ## Places of tokens -/

namespace Carries

theorem forall₂_moves (h : Carries f ts us) (htokens : ts.map Lexeme.token = us.map Lexeme.token) :
    List.Forall₂ (Lexeme.Moves f) ts us := by
  induction ts generalizing us with
  | nil =>
      obtain rfl := List.map_eq_nil_iff.mp htokens.symm
      exact .nil
  | cons t ts ih =>
      obtain ⟨u, us, rfl, htoken, htokens⟩ := List.map_eq_cons_iff.mp htokens.symm
      obtain ⟨hstart, hstarts⟩ := List.cons.inj h
      exact .cons ⟨htoken, hstart⟩ (ih hstarts htokens.symm)

/-- Tokens that begin at places of their own can be carried to as many others. -/
theorem exists_of_nodup (hlength : us.length = ts.length)
    (hnodup : (ts.map fun t => t.span.start).Nodup) : ∃ f, Carries f ts us := by
  induction ts generalizing us with
  | nil =>
      obtain rfl := List.length_eq_zero_iff.mp hlength
      exact ⟨id, rfl⟩
  | cons t ts ih =>
      obtain ⟨u, us, rfl⟩ := List.exists_cons_of_length_eq_add_one hlength
      obtain ⟨hnot, hnodup⟩ := List.nodup_cons.mp hnodup
      obtain ⟨f, hf⟩ := ih (Nat.succ.inj hlength) hnodup
      refine ⟨Function.update f t.span.start u.span.start, ?_⟩
      rw [Carries, List.map_cons, List.map_cons, Function.update_self, hf]
      congr 1
      apply List.map_congr_left
      intro other hother
      have hne : other.span.start ≠ t.span.start := fun heq =>
        hnot (List.mem_map.mpr ⟨other, hother, heq⟩)
      rw [Function.update_of_ne hne]

/-- Where both texts have their tokens in order, the order of the places is kept. -/
theorem keepsOrder (h : Carries f ts us)
    (hts : ts.Pairwise fun a b => a.span.start < b.span.start)
    (hus : us.Pairwise fun a b => a.span.start < b.span.start) :
    Position.KeepsOrder f (ts.map fun t => t.span.start) := by
  have hcarried : (ts.map fun t => t.span.start).Pairwise fun p q => f p < f q := by
    have hstarts := List.pairwise_map.mpr hus
    rw [h] at hstarts
    exact List.pairwise_map.mpr (List.pairwise_map.mp hstarts)
  have hordered : (ts.map fun t => t.span.start).Pairwise fun p q => p < q :=
    List.pairwise_map.mpr hts
  -- two places are in the same order in both lists, so it is enough to look at pairs in that order
  have hafter : ∀ p ∈ ts.map fun t => t.span.start, p < p → f p < f p := fun p _ hlt =>
    absurd hlt (Position.lt_irrefl p)
  have hbefore : (ts.map fun t => t.span.start).Pairwise fun p q => q < p → f q < f p :=
    hordered.imp fun hlt hgt => absurd hgt (Position.lt_asymm hlt)
  have hbehind : (ts.map fun t => t.span.start).Pairwise fun p q => p < q → f p < f q :=
    hcarried.imp_of_mem fun _ _ hlt _ => hlt
  exact fun p hp q hq => hbehind.forall_of_forall_of_flip hafter hbefore hp hq

end Carries

/-! ## Checks -/

theorem SyntaxError.notes_ofMiss (h : ts.map Lexeme.token = us.map Lexeme.token) (eoi eoi' : Span)
    (miss : Miss) :
    (ofMiss us eoi' miss).diagnostic.notes = (ofMiss ts eoi miss).diagnostic.notes := by
  have hat := standsAt_ofMiss ts eoi miss
  have hat' := standsAt_ofMiss us eoi' miss
  have hlength : us.length = ts.length := by simpa using congrArg List.length h.symm
  have hfound : (ofMiss us eoi' miss).found = (ofMiss ts eoi miss).found := by
    rw [hat.found, hat'.found, ← List.getElem?_map, ← List.getElem?_map, h, hlength]
  change reasonNote _ :: expectedNotes _ = reasonNote _ :: expectedNotes _
  rw [reasonNote, reasonNote, hat.reason, hat'.reason, hfound, expectedNotes, expectedNotes,
    expected_ofMiss, expected_ofMiss]

variable {source source' : String}

theorem Checked.corresponds_ofProgram {p : Program}
    (hf : Position.KeepsOrder f ((p.occurrences.map Occurrence.ident).map Ident.pos)) :
    (Checked.ofProgram source p).Corresponds f (.ofProgram source' (p.relocate f)) := by
  have hlexical := p.lexical_relocate hf
  refine ⟨rfl, ?_, ?_, ?_⟩
  · exact congrArg Analysis.errors hlexical
  · exact congrArg (fun a => a.scopes.dump) hlexical
  · exact congrArg (fun a => a.resolutions.entries) hlexical

/-- Layout does not matter: two texts with the same tokens are checked alike, up to the places where
the tokens begin.  There is a function that takes those of the one text to those of the other, and
whatever it does elsewhere, no other place is found in a program, a misuse or a meaning. -/
theorem check_ignores_layout
    (h : (Tokens.ofString source).tokens = (Tokens.ofString source').tokens) :
    (∃ f, Carries f (Tokens.ofString source).lexemes (Tokens.ofString source').lexemes) ∧
      ∀ f, Carries f (Tokens.ofString source).lexemes (Tokens.ofString source').lexemes →
        CheckedAlike f source source' := by
  constructor
  · apply Carries.exists_of_nodup
    · simpa [Tokens.tokens] using congrArg List.length h.symm
    · exact Tokens.starts_nodup source.toList
  · intro f hf
    have hmoves := hf.forall₂_moves h
    rcases Program.parse_moves hmoves (Tokens.ofString source).eoi (Tokens.ofString source').eoi
      with ⟨miss, hparse, hparse'⟩ | ⟨p, hparse, hparse'⟩
    · have hat' := SyntaxError.standsAt_ofMiss (Tokens.ofString source').lexemes
        (Tokens.ofString source').eoi miss
      rw [← hmoves.length_eq] at hat'
      exact .rejected (check_of_parse_error hparse) (check_of_parse_error hparse')
        (SyntaxError.standsAt_ofMiss _ _ miss) hat' (SyntaxError.notes_ofMiss h _ _ miss)
    · have horder := hf.keepsOrder (Tokens.lexemes_ordered source.toList)
        (Tokens.lexemes_ordered source'.toList)
      have hplaces := Program.places_subset hparse
      refine .accepted (check_of_parse hparse) (check_of_parse hparse')
        (Checked.corresponds_ofProgram fun q hq r hr => ?_)
      exact horder q (hplaces hq) r (hplaces hr)

/-- A misuse in one line, and the same misuse further down among comments. -/
theorem check_ignores_layout_of_comments :
    let source := "int x;void f()\x7bx=y;\x7d"
    let source' := "int x; // a variable\n\nvoid f() \x7b\n  x # is\n    = y;\n\x7d\n"
    (Tokens.ofString source).tokens = (Tokens.ofString source').tokens ∧
      (check source).toOption.map (fun checked => checked.analysis.errors) =
        some [.undeclared "y" ⟨1, 18⟩] ∧
      (check source').toOption.map (fun checked => checked.analysis.errors) =
        some [.undeclared "y" ⟨5, 7⟩] ∧
      ∃ f, f ⟨1, 18⟩ = ⟨5, 7⟩ ∧ CheckedAlike f source source' := by
  intro source source'
  have htokens : (Tokens.ofString source).tokens = (Tokens.ofString source').tokens := by
    decide +kernel
  have hstart : (Tokens.ofString source).lexemes[10]?.map (fun t => t.span.start) =
      some ⟨1, 18⟩ := by
    decide +kernel
  have hstart' : (Tokens.ofString source').lexemes[10]?.map (fun t => t.span.start) =
      some ⟨5, 7⟩ := by
    decide +kernel
  obtain ⟨⟨f, hf⟩, halike⟩ := check_ignores_layout htokens
  have hplace : (some ⟨5, 7⟩ : Option Position) = (some ⟨1, 18⟩ : Option Position).map f := by
    rw [← hstart, ← hstart', ← List.getElem?_map, hf, List.getElem?_map, Option.map_map]
    rfl
  exact ⟨htokens, by decide +kernel, by decide +kernel, f, (Option.some.inj hplace).symm,
    halike f hf⟩

end NameCheck
