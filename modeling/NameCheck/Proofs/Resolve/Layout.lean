import NameCheck.Proofs.Grammar.Relocation
import NameCheck.Proofs.Resolve.Accounting

/-!
# Resolving another layout

What a name means does not depend on where it stands: environments hold names and symbols, and no
places.  So the sites of a relocated program are those of the program, relocated.  The table of
meanings is kept in the order of places, so it is relocated with the program as long as the order
of the places is kept.
-/

namespace NameCheck

variable {f : Position → Position}

/-! ## Symbols -/

@[simp]
theorem TypeSpec.ty_relocate (type : TypeSpec) : (type.relocate f).ty = type.ty := by
  cases type <;> rfl

@[simp]
theorem FnDecl.symbol_relocate (decl : FnDecl) : (decl.relocate f).symbol = decl.symbol := by
  simp [FnDecl.symbol, FnDecl.relocate, Function.comp_def]

/-! ## Sites -/

/-- The same site elsewhere. -/
def Site.relocate (f : Position → Position) : Site → Site
  | .use id found => .use (id.relocate f) found
  | .member basePos base field => .member (f basePos) base (field.relocate f)
  | .typeName name found => .typeName (name.relocate f) found
  | .declared name verdict => .declared (name.relocate f) verdict
  | .passedOver name => .passedOver (name.relocate f)

theorem meaning_relocate (env : Env) : ∀ e : Expr, (e.relocate f).meaning env = e.meaning env
  | .int .. | .str .. | .bool .. | .id .. | .call .. => rfl
  | .dot _ base field => by
      rw [Expr.relocate, Expr.meaning, meaning_relocate env base]
      rfl
  | .assign _ lhs _ | .binary _ _ lhs _ => meaning_relocate env lhs
  | .unary _ _ operand => meaning_relocate env operand

mutual

theorem sites_relocate_expr (env : Env) :
    ∀ e : Expr, (e.relocate f).sites env = (e.sites env).map (Site.relocate f)
  | .int .. | .str .. | .bool .. | .id .. => rfl
  | .dot _ base field => by
      rw [Expr.relocate, Expr.sites, Expr.sites, List.map_append, sites_relocate_expr env base,
        meaning_relocate, Expr.pos_relocate]
      rfl
  | .assign _ lhs rhs | .binary _ _ lhs rhs => by
      rw [Expr.relocate, Expr.sites, Expr.sites, List.map_append, sites_relocate_expr env lhs,
        sites_relocate_expr env rhs]
  | .call _ callee args => by
      rw [Expr.relocate, Expr.sites, Expr.sites, List.map_append, sites_relocate_exprs env args]
      rfl
  | .unary _ _ operand => sites_relocate_expr env operand

theorem sites_relocate_exprs (env : Env) : ∀ es : List Expr,
    Expr.sitesAll env (Expr.relocateAll f es) = (Expr.sitesAll env es).map (Site.relocate f)
  | [] => rfl
  | e :: es => by
      rw [Expr.relocateAll, Expr.sitesAll, Expr.sitesAll, List.map_append,
        sites_relocate_expr env e, sites_relocate_exprs env es]

end

/-! ## Declarations of names -/

namespace VarDecl

variable {role : Role} {env : Env} {frame : Frame Symbol}

@[simp]
theorem verdict_relocate (decl : VarDecl) :
    (decl.relocate f).verdict role env frame = decl.verdict role env frame := by
  obtain ⟨type, name⟩ := decl
  cases type <;> cases role <;> rfl

@[simp]
theorem extend_relocate (decl : VarDecl) :
    (decl.relocate f).extend role env frame = decl.extend role env frame := by
  rw [extend, verdict_relocate]
  rfl

@[simp]
theorem sites_relocate (decl : VarDecl) :
    (decl.relocate f).sites role env frame = (decl.sites role env frame).map (Site.relocate f) := by
  obtain ⟨type, name⟩ := decl
  rw [sites, sites, verdict_relocate]
  generalize VarDecl.verdict role env frame ⟨type, name⟩ = verdict
  cases verdict <;> cases type <;> rfl

variable {envOf : Frame Symbol → Env}

@[simp]
theorem extendAll_relocate (decls : List VarDecl) :
    extendAll role envOf frame (decls.map (VarDecl.relocate f)) =
      extendAll role envOf frame decls := by
  induction decls generalizing frame with
  | nil => rfl
  | cons decl decls ih => rw [List.map_cons, extendAll, extendAll, ih, extend_relocate]

@[simp]
theorem sitesAll_relocate (decls : List VarDecl) :
    sitesAll role envOf frame (decls.map (VarDecl.relocate f)) =
      (sitesAll role envOf frame decls).map (Site.relocate f) := by
  induction decls generalizing frame with
  | nil => rfl
  | cons decl decls ih =>
      rw [List.map_cons, sitesAll, sitesAll, ih, extend_relocate, sites_relocate, List.map_append]

end VarDecl

@[simp]
theorem Env.declareAll_relocate (role : Role) (env : Env) (decls : List VarDecl) :
    env.declareAll role (decls.map (VarDecl.relocate f)) = env.declareAll role decls := by
  rw [declareAll, VarDecl.extendAll_relocate]
  rfl

/-! ## Statements and blocks -/

mutual

theorem sites_relocate_stmt (env : Env) :
    ∀ st : Stmt, (st.relocate f).sites env = (st.sites env).map (Site.relocate f)
  | .act _ e => sites_relocate_expr env e
  | .ifThen cond body | .loop _ cond body => by
      rw [Stmt.relocate, Stmt.sites, Stmt.sites, List.map_append, sites_relocate_expr env cond,
        sites_relocate_block env.enter body]
  | .ifElse cond thenBlock elseBlock => by
      rw [Stmt.relocate, Stmt.sites, Stmt.sites, List.map_append, List.map_append,
        sites_relocate_expr env cond, sites_relocate_block env.enter thenBlock,
        sites_relocate_block env.enter elseBlock]
  | .ret none => rfl
  | .ret (some e) => sites_relocate_expr env e

theorem sites_relocate_block (env : Env) :
    ∀ b : Block, (b.relocate f).sites env = (b.sites env).map (Site.relocate f)
  | .mk decls stmts => by
      rw [Block.relocate, Block.sites, Block.sites, List.map_append, VarDecl.sitesAll_relocate,
        Env.declareAll_relocate, sites_relocate_stmts _ stmts]

theorem sites_relocate_stmts (env : Env) : ∀ stmts : List Stmt,
    Stmt.sitesAll env (Stmt.relocateAll f stmts) = (Stmt.sitesAll env stmts).map (Site.relocate f)
  | [] => rfl
  | st :: stmts => by
      rw [Stmt.relocateAll, Stmt.sitesAll, Stmt.sitesAll, List.map_append,
        sites_relocate_stmt env st, sites_relocate_stmts env stmts]

end

/-! ## Declarations and programs -/

theorem TypeSpec.passedOver_relocate (type : TypeSpec) :
    (type.relocate f).passedOver = type.passedOver.map (Site.relocate f) := by
  cases type <;> rfl

namespace FnDecl

variable {env : Env}

theorem verdict_relocate (decl : FnDecl) : (decl.relocate f).verdict env = decl.verdict env := by
  rw [verdict, symbol_relocate]
  rfl

theorem env_relocate (decl : FnDecl) : (decl.relocate f).env env = decl.env env := by
  rw [FnDecl.env, verdict_relocate]
  rfl

theorem inside_relocate (decl : FnDecl) : (decl.relocate f).inside env = decl.inside env := by
  rw [inside, env_relocate]
  exact Env.declareAll_relocate .formal _ decl.formals

theorem sites_relocate (decl : FnDecl) :
    (decl.relocate f).sites env = (decl.sites env).map (Site.relocate f) := by
  rw [sites, sites, verdict_relocate, inside_relocate, env_relocate]
  simp only [relocate, TypeSpec.passedOver_relocate, VarDecl.sitesAll_relocate,
    sites_relocate_block, List.map_append, List.map_cons, Site.relocate]

end FnDecl

namespace StructDecl

variable {env : Env}

theorem table_relocate (decl : StructDecl) : (decl.relocate f).table env = decl.table env :=
  congrArg ScopeStack.ofFrame (VarDecl.extendAll_relocate decl.fields)

theorem env_relocate (decl : StructDecl) : (decl.relocate f).env env = decl.env env := by
  rw [StructDecl.env, table_relocate]
  rfl

theorem sites_relocate (decl : StructDecl) :
    (decl.relocate f).sites env = (decl.sites env).map (Site.relocate f) := by
  have hname : (decl.relocate f).name.name = decl.name.name := rfl
  rw [sites, sites, table_relocate, hname]
  cases env.inner.lookup decl.name.name with
  | none =>
      simp only [List.map_append]
      exact congrArg (· ++ _) (VarDecl.sitesAll_relocate decl.fields)
  | some _ =>
      simp only [relocate, List.map_cons, List.map_flatMap, List.flatMap_map, List.map_append,
        VarDecl.type_relocate, TypeSpec.passedOver_relocate]
      rfl

end StructDecl

namespace Decl

variable {env : Env}

theorem env_relocate (decl : Decl) : (decl.relocate f).env env = decl.env env := by
  cases decl with
  | var decl => exact Env.declareAll_relocate .variable env [decl]
  | fn decl => exact decl.env_relocate
  | struct decl => exact decl.env_relocate

theorem sites_relocate (decl : Decl) :
    (decl.relocate f).sites env = (decl.sites env).map (Site.relocate f) := by
  cases decl with
  | var decl => exact decl.sites_relocate
  | fn decl => exact decl.sites_relocate
  | struct decl => exact decl.sites_relocate

theorem sitesAll_relocate (decls : List Decl) :
    sitesAll env (decls.map (Decl.relocate f)) = (sitesAll env decls).map (Site.relocate f) := by
  induction decls generalizing env with
  | nil => rfl
  | cons decl decls ih =>
      rw [List.map_cons, sitesAll, sitesAll, ih, env_relocate, sites_relocate, List.map_append]

end Decl

namespace Program

theorem sites_relocate (p : Program) : (p.relocate f).sites = p.sites.map (Site.relocate f) :=
  Decl.sitesAll_relocate p.decls

theorem env_relocate (p : Program) : (p.relocate f).env = p.env := by
  have hstep : ∀ (decls : List Decl) (env : Env),
      (decls.map (Decl.relocate f)).foldl Decl.env env = decls.foldl Decl.env env := by
    intro decls
    induction decls with
    | nil => exact fun _ => rfl
    | cons decl decls ih =>
        intro env
        rw [List.map_cons, List.foldl_cons, List.foldl_cons, Decl.env_relocate, ih]
  exact hstep p.decls .top

end Program

/-! ## What is reported and recorded -/

/-- The same misuse elsewhere. -/
def SemanticError.relocate (f : Position → Position) : SemanticError → SemanticError
  | .multiplyDeclared name pos => .multiplyDeclared name (f pos)
  | .undeclared name pos => .undeclared name (f pos)
  | .dotAccessOfNonStruct pos => .dotAccessOfNonStruct (f pos)
  | .invalidStructField name pos => .invalidStructField name (f pos)
  | .nonFunctionVoid name pos => .nonFunctionVoid name (f pos)
  | .invalidStructTypeName name pos => .invalidStructTypeName name (f pos)

namespace Site

theorem errors_relocate (x : Site) :
    (x.relocate f).errors = x.errors.map (SemanticError.relocate f) := by
  cases x with
  | use id found => cases found <;> rfl
  | member basePos base field =>
      simp only [relocate, errors, Ident.name_relocate]
      cases base.structName? with
      | none => rfl
      | some _ => cases base.member field.name <;> rfl
  | typeName name found => cases found <;> rfl
  | declared name verdict => cases verdict <;> rfl
  | passedOver name => rfl

theorem meanings_relocate (x : Site) :
    (x.relocate f).meanings = x.meanings.map (Prod.map f id) := by
  cases x with
  | use id found => rfl
  | member basePos base field =>
      simp only [relocate, meanings, Ident.name_relocate]
      cases base.structName? <;> rfl
  | typeName name found => cases found <;> rfl
  | declared name verdict => cases verdict <;> rfl
  | passedOver name => rfl

end Site

/-- Whether `f` keeps the order of some places. -/
def Position.KeepsOrder (f : Position → Position) (places : List Position) : Prop :=
  ∀ p ∈ places, ∀ q ∈ places, p < q → f p < f q

namespace Resolutions

variable {places : List Position}

/-- The same meanings elsewhere. -/
def relocate (f : Position → Position) (table : Resolutions) : Resolutions :=
  ⟨table.entries.map (Prod.map f id)⟩

/-- Whether all that was recorded stands at some places. -/
def Within (places : List Position) (table : Resolutions) : Prop :=
  ∀ entry ∈ table.entries, entry.1 ∈ places

theorem Within.record {table : Resolutions} {p : Position} (h : table.Within places)
    (hp : p ∈ places) (symbol : Symbol) : (table.record p symbol).Within places := by
  intro entry hentry
  rcases mem_enter hentry with rfl | hentry
  · exact hp
  · exact h entry hentry

/-- Where the order of the places is kept, it is kept where an entry goes. -/
theorem record_relocate (hf : Position.KeepsOrder f places) {p : Position} (hp : p ∈ places)
    (symbol : Symbol) {table : Resolutions} (h : table.Within places) :
    (table.relocate f).record (f p) symbol = (table.record p symbol).relocate f := by
  obtain ⟨entries⟩ := table
  simp only [record, relocate, mk.injEq]
  induction entries with
  | nil => rfl
  | cons entry entries ih =>
      obtain ⟨q, other⟩ := entry
      have hq : q ∈ places := h _ List.mem_cons_self
      have hrest := ih fun entry hentry => h entry (List.mem_cons_of_mem _ hentry)
      rw [List.map_cons, Prod.map, enter, enter]
      by_cases hlt : q < p
      · rw [if_pos hlt, if_pos (hf q hq p hp hlt), hrest]
        rfl
      · rw [if_neg hlt]
        by_cases heq : q = p
        · rw [if_pos heq, heq, if_neg (Position.lt_irrefl (f p)), if_pos rfl]
          rfl
        · have hpq : p < q := by
            by_cases hpq : p < q
            · exact hpq
            · exact absurd (Position.eq_of_not_lt hlt hpq) heq
          have hfpq := hf p hp q hq hpq
          have hne : f q ≠ f p := by
            intro hsame
            rw [hsame] at hfpq
            exact Position.lt_irrefl _ hfpq
          rw [if_neg heq, if_neg (Position.lt_asymm hfpq), if_neg hne]
          rfl

theorem foldl_record_relocate (hf : Position.KeepsOrder f places)
    {entries : List (Position × Symbol)} (hentries : ∀ entry ∈ entries, entry.1 ∈ places)
    {table : Resolutions} (h : table.Within places) :
    (entries.map (Prod.map f id)).foldl (fun table entry => table.record entry.1 entry.2)
        (table.relocate f) =
      (entries.foldl (fun table entry => table.record entry.1 entry.2) table).relocate f := by
  induction entries generalizing table with
  | nil => rfl
  | cons entry entries ih =>
      obtain ⟨hentry, hentries⟩ := List.forall_mem_cons.mp hentries
      rw [List.map_cons, List.foldl_cons, List.foldl_cons, ← ih hentries (h.record hentry entry.2),
        ← record_relocate hf hentry entry.2 h]
      rfl

end Resolutions

/-- The same analysis elsewhere. -/
def Analysis.relocate (f : Position → Position) (a : Analysis) : Analysis :=
  ⟨a.scopes, a.errors.map (SemanticError.relocate f), a.resolutions.relocate f⟩

/-- Meanings are recorded where names occur. -/
theorem Program.mem_places_of_mem_meanings (p : Program) :
    ∀ entry ∈ p.sites.flatMap Site.meanings,
      entry.1 ∈ (p.occurrences.map Occurrence.ident).map Ident.pos := by
  intro entry hentry
  obtain ⟨x, hx, hmem⟩ := List.mem_flatMap.mp hentry
  obtain ⟨o, ho, hident⟩ := exists_occurrence hx
  have hpos : entry.1 = x.ident.pos := by
    rcases x.meanings_cases with hnone | ⟨symbol, hsome⟩
    · rw [hnone] at hmem
      cases hmem
    · rw [hsome] at hmem
      obtain rfl := List.mem_singleton.mp hmem
      rfl
  rw [hpos, ← hident]
  exact List.mem_map_of_mem (List.mem_map_of_mem ho)

/-- What lexical scoping finds out about a program it finds out about the program elsewhere, as
long as the order of the places where names occur is kept. -/
theorem Program.lexical_relocate (p : Program)
    (hf : Position.KeepsOrder f ((p.occurrences.map Occurrence.ident).map Ident.pos)) :
    (p.relocate f).lexical = p.lexical.relocate f := by
  have herrors : (p.relocate f).sites.flatMap Site.errors =
      (p.sites.flatMap Site.errors).map (SemanticError.relocate f) := by
    rw [sites_relocate, List.flatMap_map, List.map_flatMap]
    exact congrArg (List.flatMap · p.sites) (funext Site.errors_relocate)
  have hmeanings : (p.relocate f).sites.flatMap Site.meanings =
      (p.sites.flatMap Site.meanings).map (Prod.map f id) := by
    rw [sites_relocate, List.flatMap_map, List.map_flatMap]
    exact congrArg (List.flatMap · p.sites) (funext Site.meanings_relocate)
  have hempty : Resolutions.empty.Within ((p.occurrences.map Occurrence.ident).map Ident.pos) :=
    fun _ hentry => absurd hentry List.not_mem_nil
  have hrecorded := Resolutions.foldl_record_relocate hf p.mem_places_of_mem_meanings hempty
  rw [lexical, lexical, Analysis.add, Analysis.add, env_relocate, herrors, hmeanings]
  exact congrArg (Analysis.mk _ _) hrecorded

end NameCheck
