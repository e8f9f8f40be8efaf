import NameCheck.Proofs.Pointing
import NameCheck.Proofs.Report.Colors
import NameCheck.Proofs.Resolve.Globals

/-!
# How dumps are spelled

Names are read from letters, digits and underscores.  What the scope at the top of a program holds
is written in the names of the program and in the words for types, so that its dump consists of
ASCII characters, whatever else the text has.
-/

namespace NameCheck

/-! ## ASCII texts -/

namespace Text

/-- All characters of a text are ASCII. -/
def Ascii (text : String) : Prop :=
  ∀ c ∈ text.toList, c.toNat < 128

instance (text : String) : Decidable (Ascii text) :=
  List.decidableBAll (fun c : Char => c.toNat < 128) text.toList

variable {s t sep : String} {texts : List String}

theorem Ascii.append (hs : Ascii s) (ht : Ascii t) : Ascii (s ++ t) := by
  intro c hc
  rw [String.toList_append] at hc
  exact (List.mem_append.mp hc).elim (hs c) (ht c)

theorem Ascii.join (h : ∀ text ∈ texts, Ascii text) : Ascii (String.join texts) := by
  intro c hc
  rw [String.toList_join] at hc
  obtain ⟨text, htext, hc⟩ := List.mem_flatMap.mp hc
  exact h text htext c hc

theorem Ascii.intercalate (hsep : Ascii sep) (h : ∀ text ∈ texts, Ascii text) :
    Ascii (sep.intercalate texts) := by
  intro c hc
  by_contra hlarge
  refine not_mem_intercalate (fun hmem => hlarge (hsep c hmem)) (fun text htext hmem => ?_) hc
  exact hlarge (h text htext c hmem)

theorem ascii_of_isNamePart {c : Char} (h : Segment.isNamePart c = true) : c.toNat < 128 := by
  rcases Bool.or_eq_true_iff.mp h with halphanum | hunderscore
  · rcases Bool.or_eq_true_iff.mp halphanum with halpha | hdigit
    · rcases Bool.or_eq_true_iff.mp halpha with hupper | hlower
      · have hle : c.val ≤ 'Z'.val := (of_decide_eq_true hupper).2
        exact Nat.lt_of_le_of_lt hle (by decide)
      · have hle : c.val ≤ 'z'.val := of_decide_eq_true (Bool.and_eq_true_iff.mp hlower).2
        exact Nat.lt_of_le_of_lt hle (by decide)
    · have hle : c.val ≤ '9'.val := of_decide_eq_true (Bool.and_eq_true_iff.mp hdigit).2
      exact Nat.lt_of_le_of_lt hle (by decide)
  · obtain rfl := beq_iff_eq.mp hunderscore
    decide

end Text

open Text (Ascii)

/-! ## Names -/

theorem Segment.isNamePart_of_isNameStart {c : Char} (h : isNameStart c = true) :
    isNamePart c = true := by
  rcases Bool.or_eq_true_iff.mp h with halpha | hunderscore
  · exact Bool.or_eq_true_iff.mpr (Or.inl (Bool.or_eq_true_iff.mpr (Or.inl halpha)))
  · exact Bool.or_eq_true_iff.mpr (Or.inr hunderscore)

/-- A segment that is a name has the characters of names. -/
theorem Segment.Fits.ascii_name {segment : Segment} {rest : List Char} {name : String}
    (h : segment.Fits rest) (htoken : segment.token? = some (.name name)) : Ascii name := by
  cases h with
  | illegal => cases htoken
  | matched hmatches hmeans =>
      cases hmeans with
      | name =>
          obtain rfl := Token.name.inj (Option.some.inj htoken)
          obtain ⟨c, cs, rfl⟩ := Pattern.exists_cons hmatches.mem
          obtain ⟨hc, hcs⟩ := cons_mem_run.mp hmatches.mem
          intro d hd
          rw [String.toList_ofList] at hd
          rcases List.mem_cons.mp hd with rfl | hd
          · exact Text.ascii_of_isNamePart (Segment.isNamePart_of_isNameStart hc)
          · exact Text.ascii_of_isNamePart (hcs d hd)
      | _ => cases htoken

theorem Program.ascii_of_parse {source : String} {p : Program} {id : Ident}
    (h : Program.parse (Tokens.ofString source).lexemes (Tokens.ofString source).eoi = .ok p)
    (hid : .name id ∈ p.leaves) : Ascii id.name := by
  rw [← leaves_of_parse h] at hid
  obtain ⟨lexeme, hlexeme, hleaf⟩ := List.mem_filterMap.mp hid
  obtain ⟨segment, rest, htoken, hfits, -⟩ := Tokens.exists_segment_of_mem hlexeme
  rw [Lexeme.token_of_name hleaf rfl] at htoken
  exact hfits.ascii_name htoken

/-! ## Symbols -/

section Symbols

variable {type : TypeSpec} {fields : Option (ScopeStack Symbol)}

theorem TypeSpec.ascii_text (h : ∀ id, .name id ∈ type.leaves → Ascii id.name) :
    Ascii type.ty.text := by
  cases type with
  | int | bool | void => exact (by decide)
  | struct name => exact h name List.mem_cons_self

/-- A declared name reads as its type does. -/
theorem Role.text_symbol (role : Role) (type : TypeSpec) (fields : Option (ScopeStack Symbol)) :
    (role.symbol type fields).text = type.ty.text := by
  cases role <;> cases type <;> rfl

theorem FnDecl.ascii_symbol {decl : FnDecl} (h : ∀ id, .name id ∈ decl.leaves → Ascii id.name) :
    Ascii decl.symbol.text := by
  have hformals : Ascii (",".intercalate
      ((decl.formals.map fun formal => Symbol.param formal.type.ty none).map (·.ty.text))) := by
    refine Text.Ascii.intercalate (by decide) fun text htext => ?_
    rw [List.map_map] at htext
    obtain ⟨formal, hformal, rfl⟩ := List.mem_map.mp htext
    refine TypeSpec.ascii_text fun id hid => h id ?_
    refine List.mem_append_right _ (List.mem_cons_of_mem _ (List.mem_append_left _ ?_))
    exact List.mem_flatMap.mpr ⟨formal, hformal, List.mem_append_left _ hid⟩
  have hreturns : Ascii decl.returns.ty.text :=
    TypeSpec.ascii_text fun id hid => h id (List.mem_append_left _ hid)
  exact (hformals.append (by decide)).append hreturns

end Symbols

/-! ## Scopes -/

/-- The names and symbols of a frame are written in ASCII. -/
def Frame.Ascii (frame : Frame Symbol) : Prop :=
  ∀ entry ∈ frame.entries, Text.Ascii entry.1 ∧ Text.Ascii entry.2.text

theorem Frame.Ascii.dumpWith {frame : Frame Symbol} (h : frame.Ascii) :
    Text.Ascii (frame.dumpWith Symbol.text) := by
  refine (Text.Ascii.append (by decide) (.intercalate (by decide) fun text htext => ?_)).append
    (by decide)
  obtain ⟨entry, hentry, rfl⟩ := List.mem_map.mp htext
  obtain ⟨hname, hsymbol⟩ := h entry ((List.mergeSort_perm _ _).mem_iff.mp hentry)
  exact (hname.append (by decide)).append hsymbol

theorem Verdict.ascii_extend {frame : Frame Symbol} {name : String} {verdict : Verdict}
    (h : frame.Ascii) (hname : Ascii name)
    (hsymbol : ∀ symbol, verdict = .bound symbol → Ascii symbol.text) :
    (verdict.extend frame name).Ascii := by
  cases verdict with
  | bound symbol => exact List.forall_mem_cons.mpr ⟨⟨hname, hsymbol symbol rfl⟩, h⟩
  | _ => exact h

theorem VarDecl.ascii_extend {role : Role} {env : Env} {frame : Frame Symbol} {decl : VarDecl}
    (h : frame.Ascii) (hleaves : ∀ id, .name id ∈ decl.leaves → Ascii id.name) :
    (decl.extend role env frame).Ascii := by
  refine Verdict.ascii_extend h ?_ fun symbol hv => ?_
  · exact hleaves _ (List.mem_append_right _ (List.mem_singleton_self _))
  · have htype : Ascii decl.type.ty.text :=
      TypeSpec.ascii_text fun id hid => hleaves id (List.mem_append_left _ hid)
    have hs := (verdict_eq_bound_iff.mp hv).2.2.1
    rw [TypeSpec.symbolIn] at hs
    split at hs
    · obtain ⟨fields, -, rfl⟩ := Option.map_eq_some_iff.mp hs
      rwa [Role.text_symbol]
    · cases hs
      rwa [Role.text_symbol]

theorem Decl.ascii_env {env : Env} {d : Decl} (h : env.inner.Ascii)
    (hleaves : ∀ id, .name id ∈ d.leaves → Ascii id.name) : (d.env env).inner.Ascii := by
  cases d with
  | var decl => exact VarDecl.ascii_extend h hleaves
  | fn decl =>
      refine Verdict.ascii_extend h ?_ fun symbol hv => ?_
      · exact hleaves _ (List.mem_append_right _ List.mem_cons_self)
      · rw [FnDecl.verdict, Verdict.ofSymbol] at hv
        split at hv
        · cases hv
          exact decl.ascii_symbol hleaves
        · cases hv
  | struct decl =>
      rw [Decl.env, StructDecl.env]
      split
      · have hword : Ascii "struct" := by decide
        exact List.forall_mem_cons.mpr ⟨⟨hleaves _ List.mem_cons_self, hword⟩, h⟩
      · exact h

theorem Decl.ascii_foldl_env {env : Env} {decls : List Decl} (h : env.inner.Ascii)
    (hleaves : ∀ id, .name id ∈ decls.flatMap Decl.leaves → Ascii id.name) :
    (decls.foldl Decl.env env).inner.Ascii := by
  induction decls generalizing env with
  | nil => exact h
  | cons d decls ih =>
      refine ih (Decl.ascii_env h fun id hid => hleaves id ?_) fun id hid => hleaves id ?_
      · exact List.mem_append_left _ hid
      · exact List.mem_append_right _ hid

/-- The dump of a program that was read is written in ASCII. -/
theorem Program.ascii_dump {source : String} {p : Program}
    (h : Program.parse (Tokens.ofString source).lexemes (Tokens.ofString source).eoi = .ok p) :
    Ascii p.lexical.scopes.dump := by
  have hframe : p.env.inner.Ascii :=
    Decl.ascii_foldl_env (List.forall_mem_nil _) fun _ hid => ascii_of_parse h hid
  change Ascii (p.env.stack.dumpWith Symbol.text)
  rw [stack_env]
  refine Text.Ascii.append (by decide) (.join fun text htext => ?_)
  obtain rfl := List.mem_singleton.mp htext
  exact hframe.dumpWith

end NameCheck
