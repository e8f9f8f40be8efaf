import NameCheck.Proofs.Grammar.TracksStmt
import NameCheck.Token.Tokenize

/-!
# What a syntax error blames

The lexeme that a syntax error blames cannot stand there, unless the parser had given something up
right before it: the arguments of a call, blamed at their bracket, or the right side of an
assignment, blamed at the equals sign.
-/

namespace NameCheck.Grammar

open NameCheck.Parser

variable {ts us vs xs ys zs : List Lexeme} {s s₁ s₂ s₃ s₄ : Span} {m : Sign}

/-! ## Declarations and programs -/

theorem repeatable_nextFormal : Repeatable (.next .formal) where
  not_nullable := rfl
  tells := tells_next tells_formal
  ends_nil := trivial
  ends_again := fun _ _ _ => trivial
  halts := nofun

theorem listed_formal : Listed .formal where
  not_nullable := rfl
  tells := tells_formal
  next := repeatable_nextFormal

theorem tracks_formals {fs : List VarDecl} (h : Derives (.list .formal) xs fs) :
    Tracks (Nonterminal.list .formal).Halted (sepBy formal (sign .comma)) xs := by
  cases h with
  | listNil => exact listed_formal.tracks_nil
  | listCons hf hfs =>
      refine listed_formal.tracks_cons hf hfs (tracks_formal hf)
        (repeatable_nextFormal.tracks (fun _ _ hnext => ?_) hfs)
      cases hnext with
      | next h => exact tracks_next (tracks_formal h)

/-- The alternatives for a declaration, with the lexeme that tells each from the others. -/
def declChoices : List ((Bool × Token) × Parser Decl) :=
  [((true, .sign .lbrace), structDecl), ((true, .sign .lparen), fnDecl),
    ((true, .sign .semicolon), topVarDecl)]

theorem Derives.formal_marked {d : VarDecl} (h : Derives .formal xs d)
    (hm : leadsType (.sign m) = false) :
    Marked leadsType (true, .sign m) (xs ++ ⟨.sign m, s⟩ :: zs) := by
  refine ⟨xs, s, zs, rfl, h.formal_leads, hm, iff_of_true rfl ?_⟩
  obtain ⟨t, ts, rfl, -⟩ := h.begins.exists_first rfl
  exact nofun

theorem Derives.structDecl_marked {d : Decl} (h : Derives .structDecl xs d) :
    Marked leadsType (true, .sign .lbrace) xs := by
  cases h with
  | structDecl =>
      refine ⟨[_, _], _, _, rfl, ?_, rfl, iff_of_true rfl nofun⟩
      exact List.forall_mem_cons.mpr ⟨rfl, List.forall_mem_singleton.mpr rfl⟩

theorem Derives.fnDecl_marked {d : Decl} (h : Derives .fnDecl xs d) :
    Marked leadsType (true, .sign .lparen) xs := by
  cases h with
  | fnDecl hf => exact hf.formal_marked rfl

theorem Derives.varDecl_marked {d : VarDecl} (h : Derives .varDecl xs d) :
    Marked leadsType (true, .sign .semicolon) xs := by
  cases h with
  | varDecl hf => exact hf.formal_marked rfl

theorem declChoices_yield : ∀ entry ∈ declChoices, YieldsByMark leadsType entry := by
  simp only [declChoices, List.forall_mem_cons]
  refine ⟨yieldsByMark_of_tells tells_structDecl (fun _ => plain_of_leadsType) ?_,
    yieldsByMark_of_tells tells_fnDecl (fun _ => plain_of_leadsType) ?_,
    yieldsByMark_of_tells (tells_varDecl.map _) (fun _ => plain_of_leadsType) ?_, nofun⟩
  · exact fun ws ⟨d, hd⟩ => hd.structDecl_marked
  · exact fun ws ⟨d, hd⟩ => hd.fnDecl_marked
  · exact fun ws ⟨d, hd⟩ => hd.varDecl_marked

theorem tracks_decl {p : Parser Decl} {mark : Bool × Token} (hmem : (mark, p) ∈ declChoices)
    (hxs : Marked leadsType mark xs) (hp : Tracks Nonterminal.decl.Halted p xs) :
    Tracks Nonterminal.decl.Halted decl xs := by
  refine ⟨tells_decl.forward, fun ys us hne hys => ?_⟩
  have hmarks : (declChoices.map Prod.fst).Nodup := by decide
  exact .firstOf declChoices_yield hmarks hmem hxs hne hys (hp.blames ys us hne hys)

theorem tracks_structDecl {x : String} {fs : List VarDecl} (hfs : Derives (.many .varDecl) ts fs)
    (hend : Optional (.sign .semicolon) us) :
    Tracks Nonterminal.structDecl.Halted structDecl
      (⟨.keyword .struct_, s₁⟩ :: ⟨.name x, s₂⟩ :: ⟨.sign .lbrace, s₃⟩ ::
        (ts ++ ⟨.sign .rbrace, s₄⟩ :: us)) := by
  have hplain : ∀ t ∈ us, Plain t := by
    rcases hend with rfl | ⟨s, rfl⟩
    · nofun
    · exact List.forall_mem_singleton.mpr ⟨by simp, by simp⟩
  have hend' : Tracks Nonterminal.structDecl.Halted (Parser.optional (sign .semicolon)) us :=
    tracks_optional hend hplain
  have hfields := repeatable_varDecl.tracks (fun _ _ => tracks_varDecl) hfs
  refine .token_bind (.ident_bind fun _ => hfields.between_bind (fun us => ?_) (fun us hus => ?_)
    fun _ => hend'.map fun _ => id)
  · exact repeatable_varDecl.stopsBefore hfs rfl fun _ => trivial
  · exact failsHere_of_begun (n := .varDecl) (hus.resolve_left id) rfl

theorem tracks_fnDecl {d : VarDecl} {fs : List VarDecl} (hf : Derives .formal ts d)
    (hfs : Derives (.list .formal) us fs) (ihb : Tracks Nonterminal.block.Halted block vs) :
    Tracks Nonterminal.fnDecl.Halted fnDecl
      (ts ++ ⟨.sign .lparen, s₁⟩ :: (us ++ ⟨.sign .rparen, s₂⟩ :: vs)) := by
  refine (tracks_formal hf).bind (fun _ _ _ => hf.formal_stopsBefore) (fun d => ?_)
    fun _ _ => False.elim
  refine (tracks_formals hfs).between_bind (fun us => ?_) (fun us hus => ?_)
    fun _ => ihb.map fun _ => id
  · exact listed_formal.stopsBefore hfs rfl fun _ => trivial
  · exact failsHere_of_list hus False.elim rfl

theorem repeatable_decl : Repeatable .decl where
  not_nullable := rfl
  tells := tells_decl
  ends_nil := nextNot_nil
  ends_again := by
    intro u us hu
    refine nextNot_cons.mpr fun m _ heq => ?_
    simp [Nonterminal.first, startsType, heq] at hu
  halts := nofun

theorem tracks_program (ih : Tracks (Nonterminal.many .decl).Halted (many decl) ts) :
    Tracks Nonterminal.program.Halted program ts := by
  have hdecls : Tracks (Nonterminal.many .decl).Halted (do
      let decls ← many decl
      return Program.mk decls) ts := ih.map fun _ => id
  have hend : Forward endOfInput := by
    rintro (_ | ⟨t, ts⟩) <;> exact Nat.le_refl _
  refine hdecls.bind_nil (fun _ => hend.bind fun _ => .pure) fun _ us hus => ?_
  obtain ⟨t, ht, -⟩ := hus.resolve_left id
  have hfails : FailsHere endOfInput us := by
    cases us with
    | nil => cases ht
    | cons u us => exact ⟨_, rfl, rfl⟩
  exact .of_failsHere hfails.bind

/-- The parser of a nonterminal keeps track of what is derived from it.  The induction is on the
derivation. -/
theorem Derives.tracks {n : Nonterminal} {v : n.Tree} (h : Derives n xs v) (hn : n.Regular) :
    Tracks n.Halted n.parser xs := by
  induction h with
  | program _ ih => exact tracks_program (ih ⟨repeatable_decl, trivial⟩)
  | declStruct h ih =>
      exact tracks_decl (p := Grammar.structDecl) (by simp [declChoices]) h.structDecl_marked
        (ih trivial)
  | declFn h ih =>
      exact tracks_decl (p := Grammar.fnDecl) (by simp [declChoices]) h.fnDecl_marked (ih trivial)
  | declVar h ih =>
      exact tracks_decl (p := topVarDecl) (by simp [declChoices]) h.varDecl_marked
        ((ih trivial).map fun _ => id)
  | structDecl hfs hend => exact tracks_structDecl hfs hend
  | varDecl hd => exact tracks_varDecl (.varDecl hd)
  | basicType hw => exact tracks_type (.basicType hw)
  | structType hstart => exact tracks_type (.structType hstart)
  | fnDecl hf hfs _ _ _ ihb => exact tracks_fnDecl hf hfs (ihb trivial)
  | formal ht => exact tracks_formal (.formal ht)
  | block hds hss _ ihss => exact tracks_block hds hss (ihss ⟨repeatable_stmt, trivial⟩)
  | assignStmt hl he _ ih => exact tracks_assignStmt hl he (ih trivial)
  | postStmt hm hl => exact tracks_postStmt hm hl
  | preStmt hm hl => exact tracks_preStmt hm hl
  | readStmt hl => exact tracks_readStmt hl
  | writeStmt he ih => exact tracks_writeStmt he (ih trivial)
  | ifThen he _ ih ihb => exact tracks_ifThen he (ih trivial) (ihb trivial)
  | ifElse he hb _ ih ihb ihb' =>
      exact tracks_ifElse he hb (ih trivial) (ihb trivial) (ihb' trivial)
  | loopStmt hw he _ ih ihb => exact tracks_loopStmt hw he (ih trivial) (ihb trivial)
  | callStmt h ih => exact tracks_callStmt h (ih trivial)
  | returnStmt => exact tracks_returnStmt
  | returnValue he ih => exact tracks_returnValue he (ih trivial)
  | assign hl _ _ ih => exact tracks_assign hl (ih trivial)
  | or h ih => exact tracks_or h (ih trivial)
  | level hk he hos ih ihos =>
      exact tracks_level hk he hos (ih trivial) (ihos ⟨repeatable_operation hk, trivial⟩)
  | operation hm hk _ ih => exact tracks_operation hm hk (ih trivial)
  | unary hos he _ ih => exact tracks_unary hos he (ih trivial)
  | unaryOp hm => exact tracks_unaryOp (.unaryOp hm)
  | atomCall h ih => exact tracks_atomCall h (ih trivial)
  | atomInt | atomStr | atomTrue | atomFalse =>
      exact tracks_literal (by simp) fun us => reads_select.mpr ⟨_, rfl, rfl⟩
  | atomLoc h => exact tracks_atomLoc h
  | atomParen h ih => exact tracks_atomParen h (ih trivial)
  | call has ih => exact tracks_call has (ih ⟨listed_exp, trivial⟩)
  | loc hfs => exact tracks_location (.loc hfs)
  | dotName => exact tracks_dotName .dotName
  | manyNil => exact hn.1.tracks_nil
  | manyCons h hs ih ihs => exact hn.1.tracks_cons h hs (ih hn.2) (ihs hn)
  | listNil => exact hn.1.tracks_nil
  | listCons h hs ih ihs => exact hn.1.tracks_cons h hs (ih hn.2) (ihs ⟨hn.1.next, hn.2⟩)
  | next _ ih => exact tracks_next (ih hn)

end NameCheck.Grammar

namespace NameCheck.Program

open NameCheck.Grammar NameCheck.Parser

variable {ts : List Lexeme} {eoi : Span} {error : SyntaxError}

end NameCheck.Program
