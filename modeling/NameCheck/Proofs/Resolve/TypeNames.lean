import NameCheck.Proofs.Resolve.Accounting
import NameCheck.Proofs.Resolve.Structs

/-!
# Names of types in programs without errors

Where nothing is reported, the name of a type that is looked up means a struct that was accepted
before, or the struct that it stands in.  Two kinds of names are not looked up: that of a type
that a function returns, and that of a variable which is passed over because it is named like an
accepted formal of its scope.
-/

namespace NameCheck

/-- The struct that the name of a type is to mean, wherever a type is written. -/
def Occurrence.typeName? : Occurrence → Option Ident
  | .typeName _ _ name | .returnType name => some name
  | _ => none

namespace Program

/-- The names of structs that are written as types. -/
def typeNames (p : Program) : List Ident :=
  p.occurrences.filterMap Occurrence.typeName?

end Program

/-- Without errors no site reports anything. -/
theorem Checked.errors_eq_nil {source : String} {p : Program}
    (h : (Checked.ofProgram source p).hasErrors = false) : ∀ x ∈ p.sites, x.errors = [] := by
  have hfatal : (p.lexical.errors.map SemanticError.diagnostic).any Diagnostic.isFatal = false := by
    rw [hasErrors, ofProgram, Sink.hasErrors_extend, Bool.or_eq_false_iff] at h
    exact h.2
  have hnone : p.lexical.errors = [] := by
    rw [List.any_map, List.any_eq_false] at hfatal
    exact List.eq_nil_iff_forall_not_mem.mpr fun error herror => hfatal error herror rfl
  intro x hx
  exact List.flatMap_eq_nil_iff.mp hnone x hx

namespace Program

variable {p : Program} {before after : List Decl} {d : Decl} {name : Ident}
  {fields : Option (ScopeStack Symbol)}

/-- An accepted struct is declared at one of its sites. -/
theorem Accepts.declared_mem_sites {env : Env} {struct : StructDecl} (h : p.Accepts env struct) :
    .declared struct.name (.bound (.structDecl (some (struct.table env)))) ∈ p.sites := by
  obtain ⟨before, after, hdecls, rfl, hfree⟩ := h
  refine sites_subset hdecls ?_
  change _ ∈ struct.sites _
  rw [StructDecl.sites, hfree]
  exact List.mem_append_right _ List.mem_cons_self

/-- What the name of a type is found to mean is an accepted struct before it, or the struct that
it stands in. -/
theorem accepts_of_typeName (hdecls : p.decls = before ++ d :: after)
    (hx : .typeName name (some fields) ∈ d.sites (env ⟨before⟩)) :
    ∃ env struct, p.Accepts env struct ∧ struct.name.name = name.name ∧
      (.struct struct ∈ before ∧ fields = some (struct.table env) ∨
        d = .struct struct ∧ fields = none) := by
  have hgrounded := grounded_decl (grounded_env ⟨before⟩) d _ hx
  have hbefore (h : (env ⟨before⟩).tables name.name fields) :
      ∃ env struct, p.Accepts env struct ∧ struct.name.name = name.name ∧
        (.struct struct ∈ before ∧ fields = some (struct.table env) ∨
          d = .struct struct ∧ fields = none) := by
    obtain ⟨env, struct, haccepts, hname, hfields⟩ := exists_accepts h
    have hmem : .struct struct ∈ before := by
      obtain ⟨_, _, rfl, -⟩ := haccepts
      exact List.mem_append_right _ List.mem_cons_self
    have haccepts' : p.Accepts env struct := by
      have h := haccepts.append (d :: after)
      rwa [← hdecls] at h
    exact ⟨env, struct, haccepts', hname, Or.inl ⟨hmem, hfields⟩⟩
  cases d with
  | var decl => exact hbefore hgrounded
  | fn decl => exact hbefore hgrounded
  | struct struct =>
      rcases hgrounded with h | ⟨hname, hfields⟩
      · exact hbefore h
      · have hfree : (env ⟨before⟩).inner.lookup struct.name.name = none := by
          cases hl : (env ⟨before⟩).inner.lookup struct.name.name with
          | none => rfl
          | some symbol =>
              obtain h | ⟨_, h⟩ := StructDecl.mem_sites_of_taken hl hx
              · cases h
              · cases h
        exact ⟨_, struct, ⟨before, after, hdecls, rfl, hfree⟩, hname.symm, Or.inr ⟨rfl, hfields⟩⟩

end Program

/-- In a text in which no error is found, the name of a type means a struct: one that was declared
and accepted before, or the one that is being declared, which then has no field table yet.  This
holds of variables, fields and formals, but for the variables that are passed over because an
accepted formal of their scope has the same name. -/
theorem check_knows_types {source : String} {checked : Checked} (h : check source = .ok checked)
    (hclean : checked.hasErrors = false) {before after : List Decl} {d : Decl}
    (hdecls : checked.program.decls = before ++ d :: after) {owner : Owner} {decl : VarDecl}
    {name : Ident} (ho : .typeName owner decl name ∈ d.occurrences)
    (hkept : ∀ formals, owner = .variable formals → ∀ formal ∈ formals,
      formal.name.name = decl.name.name →
        checked.analysis.resolutions.get? formal.name.pos = none) :
    ∃ struct table, struct.name.name = name.name ∧
      checked.analysis.resolutions.get? struct.name.pos = some (.structDecl (some table)) ∧
      (.struct struct ∈ before ∧
          checked.analysis.resolutions.get? name.pos = some (.structDecl (some table)) ∨
        d = .struct struct ∧
          checked.analysis.resolutions.get? name.pos = some (.structDecl none)) := by
  obtain ⟨p, hp, rfl⟩ := check_ok_iff.mp h
  have hnotes := Program.notes_lexical (Program.occurrences_ordered hp)
  have hmeaning {x : Site} (hx : x ∈ p.sites) :
      p.lexical.resolutions.get? x.ident.pos = x.meanings.head?.map Prod.snd :=
    congrArg Prod.fst (hnotes x hx)
  have hsilent := Checked.errors_eq_nil hclean
  obtain ⟨x, hx, hsettles⟩ := Program.exists_settles_in hdecls ho
  have hsite := Program.sites_subset hdecls hx
  cases hsettles with
  | @typeName _ _ _ found =>
      cases found with
      | none => cases hsilent _ hsite
      | some fields =>
          obtain ⟨env, struct, haccepts, hname, hwhere⟩ := Program.accepts_of_typeName hdecls hx
          have hstruct := hmeaning haccepts.declared_mem_sites
          have htype := hmeaning hsite
          refine ⟨struct, struct.table env, hname, hstruct, ?_⟩
          rcases hwhere with ⟨hbefore, rfl⟩ | ⟨rfl, rfl⟩
          · exact Or.inl ⟨hbefore, htype⟩
          · exact Or.inr ⟨rfl, htype⟩
  | typePassedOver hpass =>
      match owner, hpass with
      | .variable formals, ⟨formal, hformal, hname, symbol, hbound⟩ =>
          have hnone := hkept formals rfl formal hformal hname
          have hsome := hmeaning hbound
          exact absurd (hnone.symm.trans hsome) nofun
      | .field struct, hpass => cases hsilent _ hpass

/-- The struct `P` before a variable of its type. -/
theorem check_knows_types_of_variable :
    ∃ checked before after struct table,
      check "struct P\x7bint a;\x7d P p;" = .ok checked ∧ checked.hasErrors = false ∧
      checked.program.typeNames = [⟨"P", ⟨1, 18⟩⟩] ∧
      checked.program.structs = [⟨⟨"P", ⟨1, 8⟩⟩, [⟨.int, ⟨"a", ⟨1, 14⟩⟩⟩]⟩] ∧
      checked.program.decls =
        before ++ .var ⟨.struct ⟨"P", ⟨1, 18⟩⟩, ⟨"p", ⟨1, 20⟩⟩⟩ :: after ∧
      struct.name.name = "P" ∧
      checked.analysis.resolutions.get? struct.name.pos = some (.structDecl (some table)) ∧
      (.struct struct ∈ before ∧
          checked.analysis.resolutions.get? ⟨1, 18⟩ = some (.structDecl (some table)) ∨
        Decl.var ⟨.struct ⟨"P", ⟨1, 18⟩⟩, ⟨"p", ⟨1, 20⟩⟩⟩ = .struct struct ∧
          checked.analysis.resolutions.get? ⟨1, 18⟩ = some (.structDecl none)) := by
  have hfound : (check "struct P\x7bint a;\x7d P p;").toOption.map (fun checked =>
      (checked.hasErrors, checked.program.typeNames, checked.program.structs,
        checked.program.globals)) =
      some (false, [⟨"P", ⟨1, 18⟩⟩], [⟨⟨"P", ⟨1, 8⟩⟩, [⟨.int, ⟨"a", ⟨1, 14⟩⟩⟩]⟩],
        [⟨.struct ⟨"P", ⟨1, 18⟩⟩, ⟨"p", ⟨1, 20⟩⟩⟩]) := by
    decide +kernel
  obtain ⟨checked, h, hfound⟩ := exists_check_of_map hfound
  obtain ⟨hclean, hfound⟩ := Prod.mk.inj hfound
  obtain ⟨hnames, hfound⟩ := Prod.mk.inj hfound
  obtain ⟨hstructs, hglobals⟩ := Prod.mk.inj hfound
  have hmem := Program.mem_globals.mp (hglobals ▸ List.mem_cons_self)
  obtain ⟨before, after, hdecls⟩ := List.append_of_mem hmem
  have hoccurs : .typeName (.variable []) ⟨.struct ⟨"P", ⟨1, 18⟩⟩, ⟨"p", ⟨1, 20⟩⟩⟩ ⟨"P", ⟨1, 18⟩⟩ ∈
      (Decl.var ⟨.struct ⟨"P", ⟨1, 18⟩⟩, ⟨"p", ⟨1, 20⟩⟩⟩).occurrences := List.mem_cons_self
  obtain ⟨struct, table, hknown⟩ := check_knows_types h hclean hdecls hoccurs
    fun _ hf _ hmem => by cases hf; cases hmem
  exact ⟨checked, before, after, struct, table, h, hclean, hnames, hstructs, hdecls, hknown⟩

/-- The name of a type that a function returns is not looked up, nor is that of a variable which
is named like a formal. -/
theorem check_misses_type_names :
    (∃ checked, check "Missing f() \x7b \x7d" = .ok checked ∧ checked.hasErrors = false ∧
      checked.program.typeNames.map Ident.name = ["Missing"] ∧ checked.program.structs = []) ∧
    (∃ checked, check "void f(int a) \x7b Missing a; \x7d" = .ok checked ∧
      checked.hasErrors = false ∧ checked.program.typeNames.map Ident.name = ["Missing"] ∧
      checked.program.structs = []) := by
  have hmissed {source : String} (hfound : (check source).toOption.map (fun checked =>
      (checked.hasErrors, checked.program.typeNames.map Ident.name, checked.program.structs)) =
        some (false, ["Missing"], [])) :
      ∃ checked, check source = .ok checked ∧ checked.hasErrors = false ∧
        checked.program.typeNames.map Ident.name = ["Missing"] ∧
        checked.program.structs = [] := by
    obtain ⟨checked, h, hchecked⟩ := exists_check_of_map hfound
    obtain ⟨hclean, hchecked⟩ := Prod.mk.inj hchecked
    obtain ⟨hnames, hstructs⟩ := Prod.mk.inj hchecked
    exact ⟨checked, h, hclean, hnames, hstructs⟩
  exact ⟨hmissed (by decide +kernel), hmissed (by decide +kernel)⟩

end NameCheck
