import NameCheck.Proofs.Resolve.Accounting
import NameCheck.Proofs.Resolve.Structs

/-!
# Fields that are reached through fields

A path of fields is followed through field tables, from the one that a variable or formal got
where it was declared.  Because every struct that a field table tells of is complete there, but
for the struct that the table belongs to, a path means what the declarations of its fields say,
unless it goes through a field that has the type of its own struct.
-/

namespace NameCheck

/-! ## Paths of symbols -/

/-- `Selects base fields symbols`: from `base`, an instance of a struct, each of the fields is
found in turn, with the symbol that stands beside it. -/
inductive Symbol.Selects : Symbol → List Ident → List Symbol → Prop where
  | nil {base : Symbol} : Selects base [] []
  | cons {base symbol : Symbol} {field : Ident} {fields : List Ident} {symbols : List Symbol}
      {struct : String} (hs : base.structName? = some struct)
      (hm : base.member field.name = some symbol) (hrest : Selects symbol fields symbols) :
      Selects base (field :: fields) (symbol :: symbols)

/-- An expression with fields that are selected one after another. -/
def Expr.select (base : Expr) (fields : List Ident) : Expr :=
  fields.foldl (fun base field => .dot base.pos base field) base

section Members

variable {base symbol : Symbol} {field : Ident} {struct : String} {pos : Position}

theorem Site.meanings_member (hs : base.structName? = some struct) :
    (Site.member pos base field).meanings =
      [(field.pos, (base.member field.name).getD .undefined)] := by
  rw [meanings, hs]

theorem Site.errors_member_of_some (hs : base.structName? = some struct)
    (hm : base.member field.name = some symbol) : (Site.member pos base field).errors = [] := by
  rw [errors, hs, hm]

theorem Site.errors_member_of_none (hs : base.structName? = some struct)
    (hm : base.member field.name = none) :
    (Site.member pos base field).errors = [.invalidStructField field.name field.pos] := by
  rw [errors, hs, hm]

theorem Site.notes_member_of_some (hs : base.structName? = some struct)
    (hm : base.member field.name = some symbol) :
    (Site.member pos base field).notes = (some symbol, []) := by
  rw [notes, meanings_member hs, errors_member_of_some hs hm, hm]
  rfl

theorem Site.notes_member_of_none (hs : base.structName? = some struct)
    (hm : base.member field.name = none) :
    (Site.member pos base field).notes =
      (some .undefined, [.invalidStructField field.name field.pos]) := by
  rw [notes, meanings_member hs, errors_member_of_none hs hm, hm]
  exact congrArg (some Symbol.undefined, ·) (SemanticError.filter_blames_self rfl rfl)

end Members

theorem Expr.meaning_dot {env : Env} {pos : Position} {e : Expr} {field : Ident}
    {struct : String} {symbol : Symbol} (hs : (e.meaning env).structName? = some struct)
    (hm : (e.meaning env).member field.name = some symbol) :
    (Expr.dot pos e field).meaning env = symbol := by
  rw [meaning, hs, hm]
  rfl

namespace Symbol.Selects

variable {base symbol : Symbol} {fields : List Ident} {symbols : List Symbol} {env : Env}
  {e : Expr}

theorem concat {last : Ident} {struct : String} (h : Selects base fields symbols)
    (hs : (symbols.getLastD base).structName? = some struct)
    (hm : (symbols.getLastD base).member last.name = some symbol) :
    Selects base (fields ++ [last]) (symbols ++ [symbol]) := by
  induction h with
  | nil => exact .cons hs hm .nil
  | @cons base next _ _ symbols _ hs' hm' _ ih =>
      refine .cons hs' hm' (ih ?_ ?_)
      · rwa [List.getLastD_cons] at hs
      · rwa [List.getLastD_cons] at hm

theorem length_eq (h : Selects base fields symbols) : fields.length = symbols.length := by
  induction h with
  | nil => rfl
  | cons _ _ _ ih => exact congrArg Nat.succ ih

theorem meaning_select (h : Selects (e.meaning env) fields symbols) :
    (e.select fields).meaning env = symbols.getLastD (e.meaning env) := by
  generalize hb : e.meaning env = base at h
  induction h generalizing e with
  | nil => exact hb
  | @cons base symbol field _ _ _ hs hm _ ih =>
      have hdot : (Expr.dot e.pos e field).meaning env = symbol :=
        Expr.meaning_dot (hb ▸ hs) (hb ▸ hm)
      rw [List.getLastD_cons]
      exact ih hdot

/-- Nothing is reported about fields that are found. -/
theorem errors_select (h : Selects (e.meaning env) fields symbols) :
    ((e.select fields).sites env).flatMap Site.errors = (e.sites env).flatMap Site.errors := by
  generalize hb : e.meaning env = base at h
  induction h generalizing e with
  | nil => rfl
  | @cons base symbol field _ _ _ hs hm _ ih =>
      have hdot : (Expr.dot e.pos e field).meaning env = symbol :=
        Expr.meaning_dot (hb ▸ hs) (hb ▸ hm)
      have hsite : (Site.member e.pos (e.meaning env) field).errors = [] :=
        Site.errors_member_of_some (hb ▸ hs) (hb ▸ hm)
      refine (ih hdot).trans ?_
      rw [Expr.sites, List.flatMap_append, List.flatMap_singleton, hsite, List.append_nil]

/-- The symbols of the fields are recorded at them. -/
theorem meanings_select (h : Selects (e.meaning env) fields symbols) :
    ((e.select fields).sites env).flatMap Site.meanings =
      (e.sites env).flatMap Site.meanings ++ (fields.map Ident.pos).zip symbols := by
  generalize hb : e.meaning env = base at h
  induction h generalizing e with
  | nil => exact (List.append_nil _).symm
  | @cons base symbol field _ _ _ hs hm _ ih =>
      have hdot : (Expr.dot e.pos e field).meaning env = symbol :=
        Expr.meaning_dot (hb ▸ hs) (hb ▸ hm)
      have hsite : (Site.member e.pos (e.meaning env) field).meanings = [(field.pos, symbol)] := by
        rw [Site.meanings_member (hb ▸ hs), hb, hm]
        rfl
      refine (ih hdot).trans ?_
      rw [Expr.sites, List.flatMap_append, List.flatMap_singleton, hsite, List.append_assoc]
      rfl

theorem sites_subset_select (e : Expr) (fields : List Ident) :
    e.sites env ⊆ (e.select fields).sites env := by
  induction fields generalizing e with
  | nil => exact List.Subset.refl _
  | cons field fields ih =>
      refine List.Subset.trans ?_ (ih (.dot e.pos e field))
      exact List.subset_append_left _ _

/-- At each field its symbol is noted, and no misuse. -/
theorem exists_site (h : Selects (e.meaning env) fields symbols) :
    ∀ entry ∈ fields.zip symbols, ∃ x ∈ (e.select fields).sites env, x.ident = entry.1 ∧
      x.notes = (some entry.2, []) := by
  generalize hb : e.meaning env = base at h
  induction h generalizing e with
  | nil =>
      intro entry hentry
      cases hentry
  | @cons base symbol field fields _ _ hs hm _ ih =>
      intro entry hentry
      rcases List.mem_cons.mp hentry with rfl | hentry
      · refine ⟨.member e.pos (e.meaning env) field, ?_, rfl, ?_⟩
        · refine sites_subset_select (.dot e.pos e field) fields ?_
          exact List.mem_append_right _ List.mem_cons_self
        · exact Site.notes_member_of_some (hb ▸ hs) (hb ▸ hm)
      · exact ih (Expr.meaning_dot (hb ▸ hs) (hb ▸ hm)) entry hentry

end Symbol.Selects

/-! ## Fields of structs -/

/-- A field that a struct of a program declares, with the symbol that it was declared with: the
struct and the field are accepted. -/
def Checked.HasField (checked : Checked) (struct : String) (field : VarDecl) (symbol : Symbol) :
    Prop :=
  ∃ decl, .struct decl ∈ checked.program.decls ∧ decl.name.name = struct ∧ field ∈ decl.fields ∧
    checked.analysis.resolutions.get? field.name.pos = some symbol

/-- `Path struct fields symbols last`: the fields lead from one struct to another.  Each of them
is an accepted field of the struct that was reached, has the type of the next one, and not the
type of the struct that it belongs to. -/
inductive Checked.Path (checked : Checked) :
    String → List Ident → List Symbol → String → Prop where
  | nil {struct : String} : Path checked struct [] [] struct
  | cons {struct last : String} {field : VarDecl} {symbol : Symbol} {next name : Ident}
      {fields : List Ident} {symbols : List Symbol}
      (hfield : checked.HasField struct field symbol) (hname : field.name.name = name.name)
      (htype : field.type = .struct next) (hother : next.name ≠ struct)
      (hrest : Path checked next.name fields symbols last) :
      Path checked struct (name :: fields) (symbol :: symbols) last

/-- An instance of a struct that carries the field table which the struct has in a program. -/
structure Program.Instance (p : Program) (struct : String) (symbol : Symbol) : Prop where
  structName? : symbol.structName? = some struct
  tables : p.env.tables struct symbol.fields?

theorem VarDecl.exists_of_declared {role : Role} {envOf : Frame Symbol → Env} {name : Ident}
    {symbol : Symbol} {frame : Frame Symbol} {decls : List VarDecl}
    (h : .declared name (.bound symbol) ∈ sitesAll role envOf frame decls) :
    (extendAll role envOf frame decls).lookup name.name = some symbol := by
  induction decls generalizing frame with
  | nil => cases h
  | cons decl decls ih =>
      rcases List.mem_append.mp h with h | h
      · have hpassed : Site.declared name (.bound symbol) ∉ decl.type.passedOver := by
          intro hx
          obtain ⟨_, hx⟩ := TypeSpec.mem_passedOver hx
          cases hx
        have htype : Site.declared name (.bound symbol) ∉ decl.type.sites (envOf frame) := by
          cases decl.type with
          | struct _ =>
              intro hx
              cases List.mem_singleton.mp hx
          | _ => exact List.not_mem_nil
        rw [sites] at h
        split at h
        · cases List.mem_singleton.mp ((List.mem_append.mp h).resolve_left hpassed)
        · have hdecl := List.mem_singleton.mp ((List.mem_append.mp h).resolve_left htype)
          injection hdecl with hname hv
          have hl := lookup_extend.mpr (Or.inr ⟨congrArg Ident.name hname.symm, hv.symm⟩)
          rw [extendAll]
          exact lookup_extendAll_of_lookup hl
      · exact ih h

theorem findIn_singleton {frame : Frame Symbol} {name : String} :
    findIn [frame] name = frame.lookup name := by
  rw [findIn, List.findSome?_cons]
  cases frame.lookup name <;> rfl

section Fields

variable {p : Program} {struct : String} {symbol base : Symbol} {field : VarDecl} {o : Occurrence}
  {source : String} (hnotes : ∀ x ∈ p.sites, p.lexical.notes x.ident = x.notes)
include hnotes

theorem Program.get?_of_mem_sites {x : Site} (hx : x ∈ p.sites) :
    p.lexical.resolutions.get? x.ident.pos = x.meanings.head?.map Prod.snd :=
  congrArg Prod.fst (hnotes x hx)

/-- A declared name for which a meaning is recorded is bound to it where it is declared, and the
meaning is what the type says. -/
theorem Program.declared_of_get? {before after : List Decl} {d : Decl} {owner : Owner}
    (hdecls : p.decls = before ++ d :: after) (ho : .varName owner field ∈ d.occurrences)
    (hget : p.lexical.resolutions.get? field.name.pos = some symbol) :
    .declared field.name (.bound symbol) ∈ d.sites (Program.env ⟨before⟩) ∧
      ∃ role env, field.type.symbolIn role env = some symbol := by
  obtain ⟨x, hx, hsettles⟩ := exists_settles_in hdecls ho
  have hsite := get?_of_mem_sites hnotes (sites_subset hdecls hx)
  cases hsettles with
  | @varName _ _ verdict hfits =>
      have hmeaning :
          some symbol = (Site.declared field.name verdict).meanings.head?.map Prod.snd :=
        hget.symm.trans hsite
      cases hfits with
      | bound henv hs =>
          cases hmeaning
          exact ⟨hx, _, _, hs⟩
      | _ => cases hmeaning
  | varPassedOver => cases hget.symm.trans hsite

/-- An accepted field is found in the field table of its struct; if it is an instance of another
struct, it carries the field table of that one. -/
theorem Checked.HasField.lookup (h : (Checked.ofProgram source p).HasField struct field symbol) :
    ∃ table, p.env.tables struct (some table) ∧
      findIn table.frames field.name.name = some symbol ∧
      ∀ next, field.type = .struct next → next.name ≠ struct → p.Instance next.name symbol := by
  obtain ⟨decl, hmem, rfl, hfield, hget⟩ := h
  obtain ⟨before, after, hdecls⟩ := List.append_of_mem hmem
  have ho : .varName (.field decl) field ∈ (Decl.struct decl).occurrences := by
    refine List.mem_cons_of_mem _ (List.mem_flatMap.mpr ⟨field, hfield, ?_⟩)
    exact List.mem_append_right _ List.mem_cons_self
  obtain ⟨hx, role, env, hs⟩ := Program.declared_of_get? hnotes hdecls ho hget
  have hgrounded := grounded_decl (Program.grounded_env ⟨before⟩) (.struct decl) _ hx
  have hfree : (Program.env ⟨before⟩).inner.lookup decl.name.name = none := by
    cases hl : (Program.env ⟨before⟩).inner.lookup decl.name.name with
    | none => rfl
    | some other =>
        obtain h | ⟨_, h⟩ := StructDecl.mem_sites_of_taken hl hx
        · injection h with _ hv
          cases hv
        · cases h
  have haccepts : p.Accepts (Program.env ⟨before⟩) decl := ⟨before, after, hdecls, rfl, hfree⟩
  refine ⟨_, haccepts.tables, ?_, ?_⟩
  · change _ ∈ decl.sites _ at hx
    rw [StructDecl.sites, hfree] at hx
    have hlookup : (VarDecl.extendAll .variable
        (fun _ => decl.withFields (Program.env ⟨before⟩) none) .empty decl.fields).lookup
          field.name.name = some symbol := by
      rcases List.mem_append.mp hx with hx | hx
      · exact VarDecl.exists_of_declared hx
      · injection List.mem_singleton.mp hx with _ hv
        injection hv with hv
        exact absurd hv (TypeSpec.symbolIn_ne_structDecl hs _)
    exact findIn_singleton.trans hlookup
  · intro next htype hother
    have hname : symbol.structName? = some next.name := by
      rw [(TypeSpec.structName?_symbolIn hs).1, htype]
      rfl
    refine ⟨hname, ?_⟩
    rcases hgrounded next.name hname with h | ⟨h, -⟩
    · have hlater := Program.lookup_env_of_before h (.struct decl :: after)
      rwa [← hdecls] at hlater
    · exact absurd h hother

namespace Program.Instance

/-- The fields of an instance are those that its struct declares. -/
theorem member {name : String} (hbase : p.Instance struct base)
    (hfield : (Checked.ofProgram source p).HasField struct field symbol)
    (hname : field.name.name = name) : base.member name = some symbol := by
  obtain ⟨table, htable, hfind, -⟩ := hfield.lookup hnotes
  have hfields : base.fields? = some table := by
    have heq := hbase.tables.symm.trans htable
    simpa using heq
  rw [Symbol.member, hfields, ← hname]
  exact hfind

theorem not_member {name : String} (hbase : p.Instance struct base)
    (hnone : ∀ field symbol, (Checked.ofProgram source p).HasField struct field symbol →
      field.name.name ≠ name) : base.member name = none := by
  obtain ⟨env, decl, haccepts, rfl, hfields⟩ := exists_accepts hbase.tables
  obtain ⟨before, after, hdecls, rfl, hfree⟩ := haccepts
  rw [Symbol.member, hfields]
  refine Option.eq_none_iff_forall_ne_some.mpr fun symbol hfind => ?_
  have hlookup := findIn_singleton.symm.trans hfind
  rcases VarDecl.lookup_extendAll.mp hlookup with hl | ⟨fs, field, gs, hsplit, hname, hv⟩
  · cases hl
  · have hx : .declared field.name (.bound symbol) ∈ p.sites := by
      refine sites_subset hdecls ?_
      change _ ∈ decl.sites _
      rw [StructDecl.sites, hfree, hsplit]
      exact List.mem_append_left _ (declared_mem_sitesAll hv)
    have hget := get?_of_mem_sites hnotes hx
    have hmem : .struct decl ∈ p.decls := by simp [hdecls]
    have hfield : field ∈ decl.fields := by simp [hsplit]
    exact hnone field symbol ⟨decl, hmem, rfl, hfield, hget⟩ hname

end Program.Instance

/-- A path is followed from every instance of the struct that it begins in. -/
theorem Checked.Path.selects {fields : List Ident} {symbols : List Symbol} {last : String}
    (h : (Checked.ofProgram source p).Path struct fields symbols last)
    (hbase : p.Instance struct base) :
    base.Selects fields symbols ∧ p.Instance last (symbols.getLastD base) := by
  induction h generalizing base with
  | nil => exact ⟨.nil, hbase⟩
  | cons hfield hname htype hother _ ih =>
      obtain ⟨_, -, -, hnext⟩ := hfield.lookup hnotes
      obtain ⟨hselects, hlast⟩ := ih (hnext _ htype hother)
      have hm := hbase.member hnotes hfield hname
      refine ⟨.cons hbase.structName? hm hselects, ?_⟩
      rwa [List.getLastD_cons]

/-- A variable or formal whose type is a struct carries the field table of the struct. -/
theorem Program.instance_of_declared {owner : Owner} {type : Ident}
    (ho : .varName owner field ∈ p.occurrences) (howner : ∀ decl, owner ≠ .field decl)
    (htype : field.type = .struct type)
    (hget : p.lexical.resolutions.get? field.name.pos = some symbol) :
    p.Instance type.name symbol := by
  obtain ⟨d, hd, ho⟩ := List.mem_flatMap.mp ho
  obtain ⟨before, after, hdecls⟩ := List.append_of_mem hd
  obtain ⟨hx, role, env, hs⟩ := declared_of_get? hnotes hdecls ho hget
  have hname : symbol.structName? = some type.name := by
    rw [(TypeSpec.structName?_symbolIn hs).1, htype]
    rfl
  have htables : (Program.env ⟨before⟩).tables type.name symbol.fields? := by
    have hgrounded := grounded_decl (grounded_env ⟨before⟩) d _ hx type.name hname
    cases d with
    | var decl => exact hgrounded
    | fn decl => exact hgrounded
    | struct decl =>
        rcases List.mem_cons.mp ho with ho | ho
        · cases ho
        · obtain ⟨other, -, ho⟩ := List.mem_flatMap.mp ho
          rcases List.mem_append.mp ho with ho | ho
          · obtain ⟨_, -, ho⟩ := List.mem_map.mp ho
            cases ho
          · cases List.mem_singleton.mp ho
            exact absurd rfl (howner decl)
  have hlater := lookup_env_of_before htables (d :: after)
  rw [← hdecls] at hlater
  exact ⟨hname, hlater⟩

end Fields

/-! ## Accesses -/

/-- A name with fields that are selected from it. -/
def Ident.select (root : Ident) (fields : List Ident) : Expr :=
  (Expr.id root.pos root).select fields

/-- What selecting fields from a name that means `symbol` comes to.  Each field has a meaning, with
the misuses that are reported at it, and the last one is the meaning of the access.  This holds
in every environment in which the name is visible; so it is what is noted for each such access in
the program. -/
structure Checked.Resolves (checked : Checked) (symbol : Symbol) (fields : List Ident)
    (found : List (Symbol × List SemanticError)) : Prop where
  visible : ∀ (env : Env) (root : Ident), env.find root.name = some symbol →
    (root.select fields).meaning env = (found.map Prod.fst).getLastD symbol ∧
      ((root.select fields).sites env).flatMap Site.errors = found.flatMap Prod.snd ∧
      ((root.select fields).sites env).flatMap Site.meanings =
        (root.pos, symbol) :: (fields.map Ident.pos).zip (found.map Prod.fst)
  noted : ∀ root : Ident,
    (root.select fields).occurrences ⊆ checked.program.occurrences →
    checked.analysis.resolutions.get? root.pos = some symbol →
    ∀ entry ∈ fields.zip found, checked.analysis.notes entry.1 = (some entry.2.1, entry.2.2)

theorem Ident.select_concat (root : Ident) (fields : List Ident) (last : Ident) :
    root.select (fields ++ [last]) = .dot (root.select fields).pos (root.select fields) last := by
  rw [select, Expr.select, List.foldl_append]
  rfl

section Found

variable {symbols : List Symbol}

theorem map_fst_found :
    (symbols.map fun s => (s, ([] : List SemanticError))).map Prod.fst = symbols := by
  rw [List.map_map]
  exact List.map_id symbols

theorem flatMap_snd_found :
    (symbols.map fun s => (s, ([] : List SemanticError))).flatMap Prod.snd = [] := by
  simp

theorem mem_zip_found {fields : List Ident} {entry : Ident × Symbol × List SemanticError}
    (h : entry ∈ fields.zip (symbols.map fun s => (s, []))) :
    ∃ found, (entry.1, found) ∈ fields.zip symbols ∧ entry.2 = (found, []) := by
  rw [List.zip_map_right, List.mem_map] at h
  obtain ⟨⟨field, found⟩, h, rfl⟩ := h
  exact ⟨found, h, rfl⟩

end Found

section Accesses

variable {p : Program} {struct : String} {symbol : Symbol} {fields : List Ident}
  {symbols : List Symbol} {source : String} {root last : Ident} {env : Env}

theorem Expr.meaning_id (h : env.find root.name = some symbol) :
    (Expr.id root.pos root).meaning env = symbol := by
  rw [meaning, h]
  rfl

theorem Expr.sites_id (h : env.find root.name = some symbol) :
    (Expr.id root.pos root).sites env = [.use root (some symbol)] := by
  rw [sites, h]

/-- What is found from a name that is visible. -/
theorem Symbol.Selects.of_find (h : symbol.Selects fields symbols)
    (hfind : env.find root.name = some symbol) :
    (root.select fields).meaning env = symbols.getLastD symbol ∧
      ((root.select fields).sites env).flatMap Site.errors = [] ∧
      ((root.select fields).sites env).flatMap Site.meanings =
        (root.pos, symbol) :: (fields.map Ident.pos).zip symbols := by
  have hroot := Expr.meaning_id hfind
  have h' : ((Expr.id root.pos root).meaning env).Selects fields symbols := hroot ▸ h
  rw [Ident.select, h'.meaning_select, h'.errors_select, h'.meanings_select, hroot,
    Expr.sites_id hfind]
  exact ⟨rfl, rfl, rfl⟩

variable (hnotes : ∀ x ∈ p.sites, p.lexical.notes x.ident = x.notes)
include hnotes

/-- An access in a program is visited in an environment in which its first name means what is
recorded. -/
theorem Program.exists_env {name : String} (hsymbol : p.Instance name symbol)
    (hsub : (root.select (fields ++ [last])).occurrences ⊆ p.occurrences)
    (hroot : p.lexical.resolutions.get? root.pos = some symbol) :
    ∃ env : Env, env.find root.name = some symbol ∧
      (root.select (fields ++ [last])).sites env ⊆ p.sites := by
  have ho : .member (root.select fields) last ∈ p.occurrences := by
    refine hsub ?_
    rw [Ident.select_concat]
    exact List.mem_append_right _ List.mem_cons_self
  obtain ⟨x, hx, hsettles⟩ := p.exists_settles ho
  cases hsettles with
  | @member env _ _ hb hm =>
      have huse : .use root (env.find root.name) ∈ p.sites :=
        hb (Symbol.Selects.sites_subset_select (.id root.pos root) fields List.mem_cons_self)
      have hfind : (env.find root.name).getD .undefined = symbol := by
        have heq := (get?_of_mem_sites hnotes huse).symm.trans hroot
        exact Option.some.inj heq
      refine ⟨env, ?_, ?_⟩
      · cases hf : env.find root.name with
        | none =>
            rw [hf] at hfind
            obtain rfl : Symbol.undefined = symbol := hfind
            cases hsymbol.structName?
        | some other =>
            rw [hf] at hfind
            exact congrArg some hfind
      · rw [Ident.select_concat]
        refine List.append_subset.mpr ⟨hb, ?_⟩
        intro y hy
        obtain rfl := List.mem_singleton.mp hy
        exact hx

/-- Fields that are all found are resolved without a report. -/
theorem Symbol.Selects.resolves (hsymbol : p.Instance struct symbol)
    (h : symbol.Selects (fields ++ [last]) symbols) :
    (Checked.ofProgram source p).Resolves symbol (fields ++ [last]) (symbols.map (·, [])) where
  visible := by
    intro env root hfind
    rw [map_fst_found, flatMap_snd_found]
    exact h.of_find hfind
  noted := by
    intro root hsub hroot entry hentry
    obtain ⟨env, hfind, hsites⟩ := Program.exists_env hnotes hsymbol hsub hroot
    have h' : ((Expr.id root.pos root).meaning env).Selects (fields ++ [last]) symbols :=
      Expr.meaning_id hfind ▸ h
    obtain ⟨found, hentry, hfound⟩ := mem_zip_found hentry
    obtain ⟨x, hx, hident, hnote⟩ := h'.exists_site _ hentry
    have hnotes' := hnotes x (hsites hx)
    rw [hident, hnote] at hnotes'
    rw [hfound]
    exact hnotes'

/-- A last field that is not found is reported once, and nothing else is. -/
theorem Symbol.Selects.resolves_to_miss {name : String} (hsymbol : p.Instance name symbol)
    (h : symbol.Selects fields symbols)
    (hs : (symbols.getLastD symbol).structName? = some struct)
    (hm : (symbols.getLastD symbol).member last.name = none) :
    (Checked.ofProgram source p).Resolves symbol (fields ++ [last])
      (symbols.map (·, []) ++ [(.undefined, [.invalidStructField last.name last.pos])]) := by
  have hlength : (fields.map Ident.pos).length = symbols.length := by
    rw [List.length_map, h.length_eq]
  constructor
  · intro env root hfind
    obtain ⟨hmeaning, herrors, hmeanings⟩ := h.of_find hfind
    refine ⟨?_, ?_, ?_⟩
    · rw [Ident.select_concat, Expr.meaning, hmeaning, hs, hm, List.map_append,
        List.map_singleton, List.getLastD_concat]
      rfl
    · rw [Ident.select_concat, Expr.sites, List.flatMap_append, herrors, List.flatMap_singleton,
        hmeaning, Site.errors_member_of_none hs hm, List.flatMap_append, flatMap_snd_found]
      rfl
    · rw [Ident.select_concat, Expr.sites, List.flatMap_append, hmeanings, List.flatMap_singleton,
        hmeaning, Site.meanings_member hs, hm, List.map_append, List.map_append, map_fst_found,
        List.zip_append hlength]
      rfl
  · intro root hsub hroot entry hentry
    obtain ⟨env, hfind, hsites⟩ := Program.exists_env hnotes hsymbol hsub hroot
    rw [Ident.select_concat] at hsites
    obtain ⟨hbefore, hlast⟩ := List.append_subset.mp hsites
    have h' : ((Expr.id root.pos root).meaning env).Selects fields symbols :=
      Expr.meaning_id hfind ▸ h
    rw [List.zip_append (by rw [List.length_map, h.length_eq])] at hentry
    rcases List.mem_append.mp hentry with hentry | hentry
    · obtain ⟨found, hentry, hfound⟩ := mem_zip_found hentry
      obtain ⟨x, hx, hident, hnote⟩ := h'.exists_site _ hentry
      have hnotes' := hnotes x (hbefore hx)
      rw [hident, hnote] at hnotes'
      rw [hfound]
      exact hnotes'
    · obtain rfl := List.mem_singleton.mp hentry
      refine (hnotes _ (hlast List.mem_cons_self)).trans ?_
      rw [(h.of_find hfind).1]
      exact Site.notes_member_of_none hs hm

end Accesses

/-- From a variable or formal whose type is a struct, fields are found as the structs declare
them, at any depth and wherever the variable is visible: each field has the symbol that it was
declared with, and nothing is reported.  A last field that its struct does not have is reported
once.  No field on the way, but for the last, may have the type of its own struct. -/
theorem check_follows_fields {source : String} {checked : Checked}
    (h : check source = .ok checked) {owner : Owner} {decl : VarDecl} {type : Ident}
    {symbol : Symbol} (ho : .varName owner decl ∈ checked.program.occurrences)
    (howner : ∀ struct, owner ≠ .field struct) (htype : decl.type = .struct type)
    (haccepted : checked.analysis.resolutions.get? decl.name.pos = some symbol)
    {fields : List Ident} {symbols : List Symbol} {struct : String}
    (hpath : checked.Path type.name fields symbols struct) (last : Ident) :
    (∀ field found, checked.HasField struct field found → field.name.name = last.name →
      checked.Resolves symbol (fields ++ [last]) ((symbols ++ [found]).map (·, []))) ∧
    ((∀ field found, checked.HasField struct field found → field.name.name ≠ last.name) →
      checked.Resolves symbol (fields ++ [last])
        (symbols.map (·, []) ++ [(.undefined, [.invalidStructField last.name last.pos])])) := by
  obtain ⟨p, hp, rfl⟩ := check_ok_iff.mp h
  have hnotes := Program.notes_lexical (Program.occurrences_ordered hp)
  have hsymbol := Program.instance_of_declared hnotes ho howner htype haccepted
  obtain ⟨hselects, hlast⟩ := hpath.selects hnotes hsymbol
  constructor
  · intro field found hfield hname
    have hm := hlast.member hnotes hfield hname
    exact (hselects.concat hlast.structName? hm).resolves hnotes hsymbol
  · intro hnone
    have hm := hlast.not_member hnotes hnone
    exact hselects.resolves_to_miss hnotes hsymbol hlast.structName? hm

/-- A field of a struct in another struct. -/
theorem check_follows_fields_of_nested :
    ∃ checked b a v,
      check "struct A\x7bint v;\x7d struct B\x7bA a;\x7d B b; void f()\x7bb.a.v=1;\x7d" =
        .ok checked ∧
      checked.analysis.resolutions.get? ⟨1, 35⟩ = some b ∧
      checked.analysis.resolutions.get? ⟨1, 29⟩ = some a ∧
      checked.analysis.resolutions.get? ⟨1, 14⟩ = some v ∧
      checked.Resolves b [⟨"a", ⟨1, 49⟩⟩, ⟨"v", ⟨1, 51⟩⟩] [(a, []), (v, [])] := by
  have hfound : (check
      "struct A\x7bint v;\x7d struct B\x7bA a;\x7d B b; void f()\x7bb.a.v=1;\x7d").toOption.map
        (fun checked => (checked.program.structs, checked.program.globals,
          [⟨1, 35⟩, ⟨1, 29⟩, ⟨1, 14⟩].all fun pos =>
            (checked.analysis.resolutions.get? pos).isSome)) =
      some ([⟨⟨"A", ⟨1, 8⟩⟩, [⟨.int, ⟨"v", ⟨1, 14⟩⟩⟩]⟩,
        ⟨⟨"B", ⟨1, 25⟩⟩, [⟨.struct ⟨"A", ⟨1, 27⟩⟩, ⟨"a", ⟨1, 29⟩⟩⟩]⟩],
        [⟨.struct ⟨"B", ⟨1, 33⟩⟩, ⟨"b", ⟨1, 35⟩⟩⟩], true) := by
    decide +kernel
  obtain ⟨checked, h, hfound⟩ := exists_check_of_map hfound
  obtain ⟨hstructs, hfound⟩ := Prod.mk.inj hfound
  obtain ⟨hglobals, hget⟩ := Prod.mk.inj hfound
  simp only [List.all_cons, List.all_nil, Bool.and_true, Bool.and_eq_true,
    Option.isSome_iff_exists] at hget
  obtain ⟨⟨b, hb⟩, ⟨a, ha⟩, v, hv⟩ := hget
  have houter := Program.mem_structs.mp (hstructs ▸ List.mem_cons_of_mem _ List.mem_cons_self)
  have hinner := Program.mem_structs.mp (hstructs ▸ List.mem_cons_self)
  have hfield : checked.HasField "B" ⟨.struct ⟨"A", ⟨1, 27⟩⟩, ⟨"a", ⟨1, 29⟩⟩⟩ a :=
    ⟨_, houter, rfl, List.mem_cons_self, ha⟩
  have hlast : checked.HasField "A" ⟨.int, ⟨"v", ⟨1, 14⟩⟩⟩ v :=
    ⟨_, hinner, rfl, List.mem_cons_self, hv⟩
  have ho : .varName (.variable []) ⟨.struct ⟨"B", ⟨1, 33⟩⟩, ⟨"b", ⟨1, 35⟩⟩⟩ ∈
      checked.program.occurrences := by
    have hglobal := Program.mem_globals.mp (hglobals ▸ List.mem_cons_self)
    exact List.mem_flatMap.mpr ⟨_, hglobal, List.mem_cons_of_mem _ List.mem_cons_self⟩
  have hpath : checked.Path "B" [⟨"a", ⟨1, 49⟩⟩] [a] "A" :=
    .cons hfield rfl rfl (by decide) .nil
  have hresolves := check_follows_fields h ho (fun _ hf => by cases hf) rfl hb hpath
    ⟨"v", ⟨1, 51⟩⟩
  exact ⟨checked, b, a, v, h, hb, ha, hv, hresolves.1 _ v hlast rfl⟩

/-- Inside a struct its own field table is not there yet, so that a field of its own type has no
fields. -/
theorem check_misses_own_fields :
    ∃ checked,
      check "struct N \x7b int v; N next; \x7d; N n; void f() \x7b n.next.v = 1; \x7d" =
        .ok checked ∧
      checked.analysis.errors = [.invalidStructField "v" ⟨1, 53⟩] := by
  have hfound : (check
      "struct N \x7b int v; N next; \x7d; N n; void f() \x7b n.next.v = 1; \x7d").toOption.map
        (fun checked => checked.analysis.errors) = some [.invalidStructField "v" ⟨1, 53⟩] := by
    decide +kernel
  exact exists_check_of_map hfound

end NameCheck
