import NameCheck.Proofs.Resolve.Accounting
import NameCheck.Proofs.Resolve.Admissible

/-!
# The first admissible declaration wins

What a program declares at the top, told without running through it: each name stands for what its
first admissible declaration says, a later admissible one is reported as taking a name twice, and
one that is not admissible is reported for its type.  The same rule holds for the fields of a
struct.
-/

namespace NameCheck

/-! ## What names stand for -/

/-- The symbol of a declared variable is that of its type.  An instance of a struct comes with a
field table that goes with the struct. -/
inductive VarDecl.Denotes (T : Tables) (decl : VarDecl) : Symbol → Prop where
  | int (h : decl.type = .int) : Denotes T decl (.var .int none)
  | bool (h : decl.type = .bool) : Denotes T decl (.var .bool none)
  | ofStruct {name : Ident} {fields : Option (ScopeStack Symbol)} (h : decl.type = .struct name)
      (hT : T name.name fields) : Denotes T decl (.structVar name.name fields)

/-- Whether a field of a struct is admissible: it is so as a variable after the declarations before
the struct and the struct itself. -/
def StructDecl.Admits (before : List Decl) (struct : StructDecl) (field : VarDecl) : Prop :=
  Decl.Admissible (before ++ [.struct struct]) (.var field)

/-- The first admissible field of a name, which comes after the fields `earlier`. -/
def StructDecl.FirstField (before : List Decl) (struct : StructDecl) (name : String)
    (earlier : List VarDecl) (field : VarDecl) : Prop :=
  FirstOf (fun field : VarDecl => field.name.name) (fun _ => struct.Admits before) struct.fields
    name earlier field

/-- What the name of a declaration that comes after `before` stands for, if it is bound by it, where
`global` is all that is bound at the top.  The field table of a struct follows the same rule; its
own instances among the fields come without one. -/
inductive Decl.Denotes (global : Frame Symbol) (before : List Decl) : Decl → Symbol → Prop where
  | var {decl : VarDecl} {symbol : Symbol}
      (h : decl.Denotes (fun name fields => global.lookup name = some (.structDecl fields)) symbol) :
      Denotes global before (.var decl) symbol
  | fn {decl : FnDecl} :
      Denotes global before (.fn decl)
        (.fn decl.returns.ty (decl.formals.map fun formal => .param formal.type.ty none))
  | ofStruct {struct : StructDecl} {frame : Frame Symbol}
      (names : ∀ name, (frame.lookup name).isSome ↔
        ∃ field ∈ struct.fields, field.name.name = name ∧ struct.Admits before field)
      (symbols : ∀ name symbol, frame.lookup name = some symbol →
        ∃ earlier field, struct.FirstField before name earlier field ∧
          field.Denotes (fun other fields =>
            if other = struct.name.name then fields = none
            else global.lookup other = some (.structDecl fields)) symbol) :
      Denotes global before (.struct struct) (.structDecl (some (.ofFrame frame)))

/-! ## What is reported -/

/-- What is reported about a declaration itself, given whether it is admissible and whether its name
is taken by an earlier admissible one. -/
inductive Decl.Reports (admissible taken : Prop) : Decl → List SemanticError → Prop where
  | first {d : Decl} (ha : admissible) (hf : ¬taken) : Reports admissible taken d []
  | again {d : Decl} (ha : admissible) (ht : taken) :
      Reports admissible taken d [.multiplyDeclared d.name.name d.name.pos]
  | void {decl : VarDecl} (hv : decl.type.isVoid = true) :
      Reports admissible taken (.var decl) [.nonFunctionVoid decl.name.name decl.name.pos]
  | unknownType {decl : VarDecl} {name : Ident} (ht : decl.type = .struct name)
      (hn : ¬admissible) :
      Reports admissible taken (.var decl) [.invalidStructTypeName name.name name.pos]

/-- What is reported about fields that come after others. -/
inductive VarDecl.FieldsReport (admits : VarDecl → Prop) :
    List VarDecl → List VarDecl → List SemanticError → Prop where
  | nil {earlier : List VarDecl} : FieldsReport admits earlier [] []
  | cons {earlier fields : List VarDecl} {field : VarDecl} {own errors : List SemanticError}
      (h : Decl.Reports (admits field)
        (∃ other ∈ earlier, other.name.name = field.name.name ∧ admits other) (.var field) own)
      (hs : FieldsReport admits (earlier ++ [field]) fields errors) :
      FieldsReport admits earlier (field :: fields) (own ++ errors)

/-- What is reported inside a declaration that comes after `before`.  In a function, all that has a
name is about names that occur in its formals and its body; in a struct, each field is reported by
the rule, unless the name of the struct is taken. -/
def Decl.Inside (before : List Decl) : Decl → List SemanticError → Prop
  | .var _, errors => errors = []
  | .fn decl, errors => ∀ error ∈ errors, error.name?.isSome = true →
      ∃ o ∈ decl.formals.flatMap (VarDecl.occurrences .formal) ++ decl.body.occurrences decl.formals,
        error.name? = some o.ident.name ∧ error.pos = o.ident.pos
  | .struct decl, errors =>
    (Declared before decl.name.name ∧ errors = []) ∨
      (¬Declared before decl.name.name ∧
        VarDecl.FieldsReport (decl.Admits before) [] decl.fields errors)

/-- What is reported about declarations that come after others: of each what is reported about
itself and then what is reported inside. -/
inductive Decl.AllReport : List Decl → List Decl → List SemanticError → Prop where
  | nil {before : List Decl} : AllReport before [] []
  | cons {before decls : List Decl} {d : Decl} {own inside errors : List SemanticError}
      (hown : Reports (d.Admissible before) (Declared before d.name.name) d own)
      (hinside : d.Inside before inside) (hs : AllReport (before ++ [d]) decls errors) :
      AllReport before (d :: decls) (own ++ inside ++ errors)

/-! ## Symbols -/

theorem VarDecl.denotes {T : Tables} {env : Env} {decl : VarDecl} {symbol : Symbol}
    (h : (Decl.var decl).symbolIn env = some symbol)
    (hT : ∀ name fields, env.findStruct name = some fields → T name fields) :
    decl.Denotes T symbol := by
  obtain ⟨hv, hs⟩ := Option.ite_none_left_eq_some.mp h
  cases ht : decl.type with
  | void =>
      rw [ht] at hv
      exact absurd rfl hv
  | int =>
      rw [ht] at hs
      cases hs
      exact .int ht
  | bool =>
      rw [ht] at hs
      cases hs
      exact .bool ht
  | struct name =>
      rw [ht] at hs
      obtain ⟨fields, hfields, rfl⟩ := Option.map_eq_some_iff.mp hs
      exact .ofStruct ht (hT _ _ hfields)

namespace StructDecl

variable {env : Env} {struct : StructDecl} {fields fields' : Option (ScopeStack Symbol)}
  {name : String} {before : List Decl} {field : VarDecl}

theorem find_withFields :
    (struct.withFields env fields).find name =
      if name = struct.name.name then some (.structDecl fields) else env.find name := by
  rw [Env.find, Env.find, findIn, findIn, Env.frames, Env.frames, List.findSome?_cons,
    List.findSome?_cons, withFields, Env.within, Frame.lookup_cons]
  by_cases hname : name = struct.name.name
  · rw [if_pos hname, if_pos hname]
  · rw [if_neg hname, if_neg hname]

theorem findStruct_withFields :
    (struct.withFields env fields).findStruct name =
      if name = struct.name.name then some fields else env.findStruct name := by
  rw [Env.findStruct, find_withFields]
  by_cases hname : name = struct.name.name
  · rw [if_pos hname, if_pos hname]
  · rw [if_neg hname, if_neg hname, Env.findStruct]

/-- It does not matter for what can be accepted whether the fields of a struct are known. -/
theorem isSome_symbolIn_withFields :
    ((Decl.var field).symbolIn (struct.withFields env fields)).isSome =
      ((Decl.var field).symbolIn (struct.withFields env fields')).isSome := by
  obtain ⟨type, name⟩ := field
  cases type with
  | struct other =>
      simp only [Decl.symbolIn, TypeSpec.isVoid, TypeSpec.symbolIn, TypeSpec.structName?,
        findStruct_withFields, Option.isSome_map, Bool.false_eq_true, if_false]
      by_cases hname : other.name = struct.name.name <;> simp [hname]
  | _ => rfl

theorem env_of_free (hfree : (Program.env ⟨before⟩).inner.lookup struct.name.name = none) :
    Program.env ⟨before ++ [.struct struct]⟩ =
      struct.withFields (Program.env ⟨before⟩) (struct.table (Program.env ⟨before⟩)) := by
  rw [Program.env_append]
  change struct.env (Program.env ⟨before⟩) = _
  rw [StructDecl.env, hfree]

/-- A field is admissible if it has a symbol where the fields of its struct are not known yet. -/
theorem admits_iff (hfree : (Program.env ⟨before⟩).inner.lookup struct.name.name = none) :
    struct.Admits before field ↔
      ((Decl.var field).symbolIn (struct.withFields (Program.env ⟨before⟩) none)).isSome := by
  rw [Admits, Decl.admissible_iff, env_of_free hfree, isSome_symbolIn_withFields]

/-- In the field table of a struct the names of its admissible fields are bound. -/
theorem isSome_lookup_fields_iff
    (hfree : (Program.env ⟨before⟩).inner.lookup struct.name.name = none)
    (fields : List VarDecl) (name : String) :
    ((VarDecl.extendAll .variable (fun _ => struct.withFields (Program.env ⟨before⟩) none) .empty
        fields).lookup name).isSome ↔
      ∃ field ∈ fields, field.name.name = name ∧ struct.Admits before field := by
  rw [(VarDecl.growsBy_extendAll _).isSome_lookup_iff]
  simp only [admits_iff hfree]
  constructor
  · rintro ⟨earlier, field, later, rfl, hname, hsymbol⟩
    exact ⟨field, List.mem_append_right _ List.mem_cons_self, hname, hsymbol⟩
  · rintro ⟨field, hfield, hname, hsymbol⟩
    obtain ⟨earlier, later, rfl⟩ := List.append_of_mem hfield
    exact ⟨earlier, field, later, rfl, hname, hsymbol⟩

end StructDecl

/-- The name of a first admissible declaration stands for what the declaration says. -/
theorem Decl.First.denotes {decls before : List Decl} {name : String} {d : Decl} {symbol : Symbol}
    (hfirst : First decls name before d)
    (h : d.symbolIn (Program.env ⟨before⟩) = some symbol) :
    d.Denotes (Program.env ⟨decls⟩).inner before symbol := by
  rw [First] at hfirst
  obtain ⟨after, rfl, hname, -, hearlier⟩ := hfirst
  have hkept (other : String) (fields : Option (ScopeStack Symbol))
      (hfields : (Program.env ⟨before⟩).findStruct other = some fields) :
      (Program.env ⟨before ++ d :: after⟩).inner.lookup other = some (.structDecl fields) :=
    Program.lookup_env_of_before (Program.findStruct_env.mp hfields) _
  cases d with
  | var decl => exact .var (VarDecl.denotes h hkept)
  | fn decl =>
      cases h
      exact .fn
  | struct struct =>
      have hfree : (Program.env ⟨before⟩).inner.lookup struct.name.name = none := by
        rw [← Option.not_isSome_iff_eq_none, ← declared_iff]
        rintro ⟨earlier, other, between, hbefore, hother, hadmissible⟩
        exact hearlier earlier other between hbefore (hother.trans hname) hadmissible
      cases h
      refine .ofStruct (StructDecl.isSome_lookup_fields_iff hfree struct.fields) ?_
      intro fieldName symbol hl
      obtain ⟨earlier, field, hfield, hsymbol⟩ :=
        (VarDecl.growsBy_extendAll _).lookup_iff.mp hl
      refine ⟨earlier, field, ?_, VarDecl.denotes hsymbol ?_⟩
      · rw [StructDecl.FirstField]
        exact (FirstOf.congr fun _ _ _ _ => StructDecl.admits_iff hfree).mpr hfield
      · intro other fields hfields
        rw [StructDecl.findStruct_withFields] at hfields
        split
        · rename_i hother
          rw [if_pos hother] at hfields
          exact (Option.some.inj hfields).symm
        · rename_i hother
          rw [if_neg hother] at hfields
          exact hkept other fields hfields

/-! ## Reports -/

section Reports

variable {admissible taken : Prop} {env : Env} {frame : Frame Symbol} {before : List Decl}

/-- A name with a symbol is reported if it is taken. -/
theorem Decl.reports_ofSymbol {d : Decl} {symbol : Symbol} (ha : admissible)
    (ht : taken ↔ (frame.lookup d.name.name).isSome) :
    Reports admissible taken d
      (Site.declared d.name (.ofSymbol frame d.name.name symbol)).errors := by
  rw [Verdict.ofSymbol]
  cases hl : frame.lookup d.name.name with
  | none => exact .first ha (by simp [ht, hl])
  | some other => exact .again ha (by simp [ht, hl])

/-- At the sites of a variable or field that is not hidden there is reported what the rule says. -/
theorem VarDecl.reports {decl : VarDecl} (hhidden : decl.isHidden frame = false)
    (ha : admissible ↔ ((Decl.var decl).symbolIn env).isSome)
    (ht : taken ↔ (frame.lookup decl.name.name).isSome) :
    Decl.Reports admissible taken (.var decl)
      ((decl.sites .variable env frame).flatMap Site.errors) := by
  have hfate := decl.fate env frame
  generalize decl.sites .variable env frame = xs, decl.extend .variable env frame = frame' at hfate
  cases hfate with
  | void hv => exact .void hv
  | hidden hh =>
      rw [hhidden] at hh
      cases hh
  | unknownType htype hf =>
      exact .unknownType htype (by simp [ha, Decl.symbolIn, htype, TypeSpec.isVoid,
        TypeSpec.symbolIn, TypeSpec.structName?, hf])
  | taken hv hs hl =>
      rw [List.flatMap_append, TypeSpec.errors_sites hs]
      exact .again (d := .var decl) (by simp [ha, Decl.symbolIn, hv, hs]) (by simp [ht, hl])
  | bound hv hs hl =>
      rw [List.flatMap_append, TypeSpec.errors_sites hs]
      exact .first (by simp [ha, Decl.symbolIn, hv, hs]) (by simp [ht, hl])

theorem StructDecl.fieldsReport {struct : StructDecl}
    (hfree : (Program.env ⟨before⟩).inner.lookup struct.name.name = none)
    (earlier fields : List VarDecl) :
    let env := struct.withFields (Program.env ⟨before⟩) none
    VarDecl.FieldsReport (struct.Admits before) earlier fields
      ((VarDecl.sitesAll .variable (fun _ => env)
        (VarDecl.extendAll .variable (fun _ => env) .empty earlier) fields).flatMap
          Site.errors) := by
  intro env
  induction fields generalizing earlier with
  | nil => exact .nil
  | cons field fields ih =>
      rw [VarDecl.sitesAll, List.flatMap_append]
      have hlookup := isSome_lookup_fields_iff hfree earlier field.name.name
      -- no formal is declared in a field table
      have hhidden : field.isHidden (VarDecl.extendAll .variable (fun _ => env) .empty earlier) =
          false := by
        rw [Bool.eq_false_iff, ne_eq, VarDecl.isHidden_iff]
        rintro ⟨type, table, hl⟩
        rcases VarDecl.lookup_extendAll.mp hl with hl | ⟨_, _, _, _, _, hv⟩
        · cases hl
        · cases VarDecl.isField_of_bound hv
      have hrest := ih (earlier ++ [field])
      rw [VarDecl.extendAll_append] at hrest
      exact .cons (VarDecl.reports hhidden (admits_iff hfree) hlookup.symm) hrest

/-- All that has a name and is reported inside a function is about names that occur there. -/
theorem FnDecl.named_inside (before : List Decl) (decl : FnDecl) :
    let env := Program.env ⟨before⟩
    (Decl.fn decl).Inside before
      ((VarDecl.sitesAll .formal (decl.env env).enter.within .empty decl.formals ++
        decl.body.sites (decl.inside env)).flatMap Site.errors) := by
  intro env error herror hn
  obtain ⟨x, hx, hmem⟩ := List.mem_flatMap.mp herror
  have hcovers := covers_inside (Program.known_env ⟨before⟩) decl
    (List.subset_append_left _ _) (List.Subset.refl _)
  obtain ⟨o, ho, hident⟩ := List.mem_map.mp (hcovers.1.mem_iff.mp (List.mem_map_of_mem hx))
  refine ⟨o, ho, ?_⟩
  rw [hident]
  exact Site.named_of_mem_errors hmem hn

/-- At the sites of a declaration there is reported what the rule says about it, and then what the
rule says about what it holds. -/
theorem Decl.exists_reports (before : List Decl) (d : Decl) :
    ∃ own inside, (d.sites (Program.env ⟨before⟩)).flatMap Site.errors = own ++ inside ∧
      Reports (d.Admissible before) (Declared before d.name.name) d own ∧
      d.Inside before inside := by
  cases d with
  | var decl =>
      have hhidden : decl.isHidden (Program.env ⟨before⟩).inner = false := by
        rw [Bool.eq_false_iff, ne_eq, VarDecl.isHidden_iff]
        rintro ⟨type, fields, hl⟩
        cases Program.isGlobal_of_lookup hl with
        | field h => cases h
      refine ⟨_, [], (List.append_nil _).symm, ?_, rfl⟩
      exact VarDecl.reports hhidden (admissible_iff before _) declared_iff
  | fn decl =>
      refine ⟨(Site.declared decl.name (decl.verdict (Program.env ⟨before⟩))).errors, _, ?_,
        reports_ofSymbol (d := .fn decl) (admissible_fn before decl) declared_iff,
        decl.named_inside before⟩
      rw [Decl.sites, FnDecl.sites, List.flatMap_append, List.flatMap_cons,
        (Resolve.passedOver_silent decl.returns).1, List.nil_append]
  | struct struct =>
      have hadmissible := admissible_struct before struct
      have htaken : Declared before struct.name.name ↔
          ((Program.env ⟨before⟩).inner.lookup struct.name.name).isSome := declared_iff
      rw [Decl.sites, StructDecl.sites]
      cases hl : (Program.env ⟨before⟩).inner.lookup struct.name.name with
      | none =>
          have hfree : ¬Declared before struct.name.name := by simp [htaken, hl]
          refine ⟨[], _, ?_, .first hadmissible hfree,
            Or.inr ⟨hfree, struct.fieldsReport hl [] struct.fields⟩⟩
          rw [List.flatMap_append, List.flatMap_singleton]
          exact List.append_nil _
      | some symbol =>
          have hdeclared : Declared before struct.name.name := by simp [htaken, hl]
          refine ⟨[.multiplyDeclared struct.name.name struct.name.pos], [], ?_,
            .again hadmissible hdeclared, Or.inl ⟨hdeclared, rfl⟩⟩
          rw [List.flatMap_cons, (Resolve.passedOver_fields_silent struct.fields).1]
          rfl

theorem Decl.allReport (before decls : List Decl) :
    AllReport before decls
      ((sitesAll (Program.env ⟨before⟩) decls).flatMap Site.errors) := by
  induction decls generalizing before with
  | nil => exact .nil
  | cons d decls ih =>
      obtain ⟨own, inside, herrors, hown, hinside⟩ := exists_reports before d
      have hrest := ih (before ++ [d])
      rw [Program.env_append] at hrest
      rw [sitesAll, List.flatMap_append, herrors]
      exact .cons hown hinside hrest

end Reports

/-- The first admissible declaration wins.  After the analysis the names are bound at the top
that have an admissible declaration, each as its first one says, and every declaration is reported
by the rule, in the order of the program. -/
theorem Program.first_admissible_wins (p : Program) :
    ∃ a global, p.analyze = .ok a ∧ a.scopes = .ofFrame global ∧
      (∀ name, (global.lookup name).isSome ↔ Decl.Declared p.decls name) ∧
      (∀ name symbol, global.lookup name = some symbol →
        ∃ before d, Decl.First p.decls name before d ∧ d.Denotes global before symbol) ∧
      Decl.AllReport [] p.decls a.errors := by
  refine ⟨p.lexical, p.env.inner, p.analyze_eq_lexical, p.stack_env, fun name => ?_, ?_, ?_⟩
  · exact Decl.declared_iff.symm
  · intro name symbol hl
    obtain ⟨before, d, hfirst, hsymbol⟩ := Decl.exists_first_of_lookup hl
    exact ⟨before, d, hfirst, hfirst.denotes hsymbol⟩
  · exact Decl.allReport [] p.decls

end NameCheck
