import Mathlib.Logic.Equiv.Basic
import NameCheck.Proofs.Resolve.Refinement
import NameCheck.Proofs.Resolve.Renaming

/-!
# Names matter by being the same or not

Names are compared and nothing else.  So a renaming that tells names apart commutes with whatever
resolution does: looking a name up, declaring it, handing an environment down the tree, reporting
and recording.  A renamed program is found to be what the program is, renamed.
-/

namespace NameCheck

variable {r : String → String}

/-! ## Types and symbols -/

namespace TypeSpec

@[simp]
theorem isVoid_rename (type : TypeSpec) : (type.rename r).isVoid = type.isVoid := by
  cases type <;> rfl

@[simp]
theorem ty_rename (type : TypeSpec) : (type.rename r).ty = type.ty.rename r := by
  cases type <;> rfl

theorem passedOver_rename (type : TypeSpec) :
    (type.rename r).passedOver = type.passedOver.map (Site.rename r) := by
  cases type <;> rfl

end TypeSpec

theorem Role.symbol_rename (role : Role) (type : TypeSpec) (fields : Option (ScopeStack Symbol)) :
    role.symbol (type.rename r) (Symbol.renameTable r fields) =
      (role.symbol type fields).rename r := by
  cases role <;> cases type <;> rfl

theorem FnDecl.symbol_rename (decl : FnDecl) : (decl.rename r).symbol = decl.symbol.rename r := by
  have hformal (formal : VarDecl) : Symbol.param (formal.rename r).type.ty none =
      (Symbol.param formal.type.ty none).rename r :=
    congrArg (Symbol.param · none) (TypeSpec.ty_rename _)
  rw [symbol, symbol, Symbol.rename, Symbol.renameAll_eq_map, List.map_map, rename, List.map_map,
    TypeSpec.ty_rename]
  exact congrArg (Symbol.fn _) (List.map_congr_left fun formal _ => hformal formal)

section Lookups

variable (hr : Function.Injective r)
include hr

theorem TypeSpec.symbolIn_rename (role : Role) (env : Env) (type : TypeSpec) :
    (type.rename r).symbolIn role (env.rename r) =
      (type.symbolIn role env).map (Symbol.rename r) := by
  cases type with
  | struct name =>
      change ((env.rename r).findStruct (r name.name)).map _ =
        ((env.findStruct name.name).map _).map _
      rw [Env.findStruct_rename hr]
      cases env.findStruct name.name with
      | none => rfl
      | some fields => exact congrArg some (role.symbol_rename (.struct name) fields)
  | int => exact congrArg some (role.symbol_rename .int none)
  | bool => exact congrArg some (role.symbol_rename .bool none)
  | void => exact congrArg some (role.symbol_rename .void none)

theorem TypeSpec.sites_rename (env : Env) (type : TypeSpec) :
    (type.rename r).sites (env.rename r) = (type.sites env).map (Site.rename r) := by
  cases type with
  | struct name =>
      rw [rename, sites, sites, Ident.name_rename, Env.findStruct_rename hr]
      rfl
  | _ => rfl

/-! ## Expressions -/

theorem meaning_rename (env : Env) :
    ∀ e : Expr, (e.rename r).meaning (env.rename r) = (e.meaning env).rename r
  | .int .. | .str .. | .bool .. => rfl
  | .id _ name | .call _ name _ => by
      rw [Expr.rename, Expr.meaning, Expr.meaning, Ident.name_rename, Env.find_rename hr]
      exact Option.getD_map (Symbol.rename r) .undefined (env.find name.name)
  | .dot _ base field => by
      rw [Expr.rename, Expr.meaning, Expr.meaning, meaning_rename env base,
        Symbol.structName?_rename]
      cases (base.meaning env).structName? with
      | none => rfl
      | some struct =>
          rw [Ident.name_rename, Symbol.member_rename hr]
          exact Option.getD_map (Symbol.rename r) .undefined
            ((base.meaning env).member field.name)
  | .assign _ lhs _ | .binary _ _ lhs _ => meaning_rename env lhs
  | .unary _ _ operand => meaning_rename env operand

end Lookups

mutual

theorem sites_rename_expr (hr : Function.Injective r) (env : Env) :
    ∀ e : Expr, (e.rename r).sites (env.rename r) = (e.sites env).map (Site.rename r)
  | .int .. | .str .. | .bool .. => rfl
  | .id _ name => by
      rw [Expr.rename, Expr.sites, Expr.sites, Ident.name_rename, Env.find_rename hr]
      rfl
  | .dot _ base field => by
      rw [Expr.rename, Expr.sites, Expr.sites, List.map_append, sites_rename_expr hr env base,
        meaning_rename hr, Expr.pos_rename]
      rfl
  | .assign _ lhs rhs | .binary _ _ lhs rhs => by
      rw [Expr.rename, Expr.sites, Expr.sites, List.map_append, sites_rename_expr hr env lhs,
        sites_rename_expr hr env rhs]
  | .call _ callee args => by
      rw [Expr.rename, Expr.sites, Expr.sites, List.map_append, sites_rename_exprs hr env args,
        Ident.name_rename, Env.find_rename hr]
      rfl
  | .unary _ _ operand => sites_rename_expr hr env operand

theorem sites_rename_exprs (hr : Function.Injective r) (env : Env) : ∀ es : List Expr,
    Expr.sitesAll (env.rename r) (Expr.renameAll r es) = (Expr.sitesAll env es).map (Site.rename r)
  | [] => rfl
  | e :: es => by
      rw [Expr.renameAll, Expr.sitesAll, Expr.sitesAll, List.map_append,
        sites_rename_expr hr env e, sites_rename_exprs hr env es]

end

/-! ## Declarations of names -/

namespace Verdict

theorem ofSymbol_rename (hr : Function.Injective r) (frame : Frame Symbol) (name : String)
    (symbol : Symbol) :
    ofSymbol (frame.rename r) (r name) (symbol.rename r) =
      (ofSymbol frame name symbol).rename r := by
  rw [ofSymbol, ofSymbol, Frame.lookup_rename hr]
  cases frame.lookup name <;> rfl

theorem extend_rename (frame : Frame Symbol) (name : String) (verdict : Verdict) :
    (verdict.rename r).extend (frame.rename r) (r name) =
      (verdict.extend frame name).rename r := by
  obtain ⟨entries⟩ := frame
  cases verdict <;> rfl

end Verdict

namespace VarDecl

variable {role : Role} {env : Env} {frame : Frame Symbol} {envOf envOf' : Frame Symbol → Env}
  (hr : Function.Injective r)
include hr

theorem isHidden_rename (frame : Frame Symbol) (decl : VarDecl) :
    (decl.rename r).isHidden (frame.rename r) = decl.isHidden frame := by
  rw [isHidden, isHidden, name_rename, Ident.name_rename, Frame.lookup_rename hr]
  cases frame.lookup decl.name.name with
  | none => rfl
  | some symbol => cases symbol <;> rfl

theorem admission_rename (decl : VarDecl) :
    (decl.rename r).admission role (env.rename r) (frame.rename r) =
      (decl.admission role env frame).rename r := by
  rw [admission, admission, type_rename, TypeSpec.symbolIn_rename hr]
  cases decl.type.symbolIn role env with
  | none => rfl
  | some symbol => exact Verdict.ofSymbol_rename hr frame decl.name.name symbol

theorem verdict_rename (decl : VarDecl) :
    (decl.rename r).verdict role (env.rename r) (frame.rename r) =
      (decl.verdict role env frame).rename r := by
  rw [verdict, verdict, type_rename, TypeSpec.isVoid_rename, isHidden_rename hr,
    admission_rename hr]
  split
  · rfl
  · split <;> rfl

theorem extend_rename (decl : VarDecl) :
    (decl.rename r).extend role (env.rename r) (frame.rename r) =
      (decl.extend role env frame).rename r := by
  rw [extend, verdict_rename hr]
  exact Verdict.extend_rename frame decl.name.name _

theorem sites_rename (decl : VarDecl) :
    (decl.rename r).sites role (env.rename r) (frame.rename r) =
      (decl.sites role env frame).map (Site.rename r) := by
  have hsites := TypeSpec.sites_rename hr env decl.type
  have hpassed := decl.type.passedOver_rename (r := r)
  rw [sites, sites, verdict_rename hr]
  cases decl.verdict role env frame with
  | hidden =>
      rw [List.map_append, ← hpassed]
      rfl
  | _ =>
      rw [List.map_append, ← hsites]
      rfl

variable (henv : ∀ frame, envOf' (frame.rename r) = (envOf frame).rename r)
include henv

theorem extendAll_rename (decls : List VarDecl) :
    extendAll role envOf' (frame.rename r) (decls.map (VarDecl.rename r)) =
      (extendAll role envOf frame decls).rename r := by
  induction decls generalizing frame with
  | nil => rfl
  | cons decl decls ih =>
      rw [List.map_cons, extendAll, extendAll, henv, extend_rename hr, ih]

theorem sitesAll_rename (decls : List VarDecl) :
    sitesAll role envOf' (frame.rename r) (decls.map (VarDecl.rename r)) =
      (sitesAll role envOf frame decls).map (Site.rename r) := by
  induction decls generalizing frame with
  | nil => rfl
  | cons decl decls ih =>
      rw [List.map_cons, sitesAll, sitesAll, henv, extend_rename hr, ih, sites_rename hr,
        List.map_append]

end VarDecl

theorem Env.declareAll_rename (hr : Function.Injective r) (role : Role) (env : Env)
    (decls : List VarDecl) :
    (env.rename r).declareAll role (decls.map (VarDecl.rename r)) =
      (env.declareAll role decls).rename r :=
  congrArg (env.rename r).within (VarDecl.extendAll_rename hr env.within_rename decls)

/-! ## Statements and blocks -/

mutual

theorem sites_rename_stmt (hr : Function.Injective r) (env : Env) :
    ∀ st : Stmt, (st.rename r).sites (env.rename r) = (st.sites env).map (Site.rename r)
  | .act _ e => sites_rename_expr hr env e
  | .ifThen cond body | .loop _ cond body => by
      rw [Stmt.rename, Stmt.sites, Stmt.sites, List.map_append, sites_rename_expr hr env cond,
        Env.enter_rename, sites_rename_block hr env.enter body]
  | .ifElse cond thenBlock elseBlock => by
      rw [Stmt.rename, Stmt.sites, Stmt.sites, List.map_append, List.map_append,
        sites_rename_expr hr env cond, Env.enter_rename, sites_rename_block hr env.enter thenBlock,
        sites_rename_block hr env.enter elseBlock]
  | .ret none => rfl
  | .ret (some e) => sites_rename_expr hr env e

theorem sites_rename_block (hr : Function.Injective r) (env : Env) :
    ∀ b : Block, (b.rename r).sites (env.rename r) = (b.sites env).map (Site.rename r)
  | .mk decls stmts => by
      have hdecls : VarDecl.sitesAll .variable (env.rename r).within (env.rename r).inner
          (decls.map (VarDecl.rename r)) = _ :=
        VarDecl.sitesAll_rename hr env.within_rename decls
      rw [Block.rename, Block.sites, Block.sites, List.map_append, hdecls,
        Env.declareAll_rename hr, sites_rename_stmts hr _ stmts]

theorem sites_rename_stmts (hr : Function.Injective r) (env : Env) : ∀ stmts : List Stmt,
    Stmt.sitesAll (env.rename r) (Stmt.renameAll r stmts) =
      (Stmt.sitesAll env stmts).map (Site.rename r)
  | [] => rfl
  | st :: stmts => by
      rw [Stmt.renameAll, Stmt.sitesAll, Stmt.sitesAll, List.map_append,
        sites_rename_stmt hr env st, sites_rename_stmts hr env stmts]

end

/-! ## Declarations and programs -/

namespace FnDecl

variable {env : Env} (hr : Function.Injective r)
include hr

theorem verdict_rename (decl : FnDecl) :
    (decl.rename r).verdict (env.rename r) = (decl.verdict env).rename r := by
  rw [verdict, symbol_rename]
  exact Verdict.ofSymbol_rename hr env.inner decl.name.name decl.symbol

theorem env_rename (decl : FnDecl) :
    (decl.rename r).env (env.rename r) = (decl.env env).rename r := by
  rw [FnDecl.env, verdict_rename hr]
  exact congrArg (env.rename r).within (Verdict.extend_rename env.inner decl.name.name _)

theorem inside_rename (decl : FnDecl) :
    (decl.rename r).inside (env.rename r) = (decl.inside env).rename r := by
  rw [inside, env_rename hr, Env.enter_rename]
  exact Env.declareAll_rename hr .formal _ decl.formals

theorem sites_rename (decl : FnDecl) :
    (decl.rename r).sites (env.rename r) = (decl.sites env).map (Site.rename r) := by
  have hformals : VarDecl.sitesAll .formal ((decl.env env).enter.rename r).within
      (Frame.empty.rename r) (decl.formals.map (VarDecl.rename r)) = _ :=
    VarDecl.sitesAll_rename hr (decl.env env).enter.within_rename decl.formals
  rw [sites, sites, verdict_rename hr, inside_rename hr, env_rename hr, List.map_append,
    List.map_cons, List.map_append, ← TypeSpec.passedOver_rename, ← hformals,
    ← sites_rename_block hr]
  rfl

end FnDecl

namespace StructDecl

variable {env : Env}

theorem withFields_rename (decl : StructDecl) (fields : Option (ScopeStack Symbol)) :
    (decl.rename r).withFields (env.rename r) (Symbol.renameTable r fields) =
      (decl.withFields env fields).rename r := by
  obtain ⟨⟨entries⟩, outer⟩ := env
  rfl

variable (hr : Function.Injective r)
include hr

theorem table_rename (decl : StructDecl) :
    (decl.rename r).table (env.rename r) = (decl.table env).rename r := by
  have hfields : VarDecl.extendAll .variable
      (fun _ => (decl.rename r).withFields (env.rename r) none)
      (Frame.empty.rename r) (decl.fields.map (VarDecl.rename r)) = _ :=
    VarDecl.extendAll_rename hr (fun _ => decl.withFields_rename none) decl.fields
  exact congrArg ScopeStack.ofFrame hfields

theorem env_rename (decl : StructDecl) :
    (decl.rename r).env (env.rename r) = (decl.env env).rename r := by
  rw [StructDecl.env, StructDecl.env, name_rename, Ident.name_rename, Env.inner_rename,
    Frame.lookup_rename hr, table_rename hr]
  cases env.inner.lookup decl.name.name with
  | none => exact decl.withFields_rename (some (decl.table env))
  | some _ => rfl

theorem sites_rename (decl : StructDecl) :
    (decl.rename r).sites (env.rename r) = (decl.sites env).map (Site.rename r) := by
  rw [sites, sites, name_rename, Ident.name_rename, Env.inner_rename, Frame.lookup_rename hr,
    table_rename hr]
  cases env.inner.lookup decl.name.name with
  | none =>
      have hfields : VarDecl.sitesAll .variable
          (fun _ => (decl.rename r).withFields (env.rename r) none) (Frame.empty.rename r)
          (decl.fields.map (VarDecl.rename r)) = _ :=
        VarDecl.sitesAll_rename hr (fun _ => decl.withFields_rename none) decl.fields
      simp only [Option.map_none, List.map_append]
      rw [← hfields]
      rfl
  | some _ =>
      simp only [Option.map_some, rename, List.map_cons, List.map_flatMap, List.flatMap_map,
        List.map_append, VarDecl.rename, TypeSpec.passedOver_rename]
      rfl

end StructDecl

namespace Decl

variable {env : Env} (hr : Function.Injective r)
include hr

theorem env_rename (decl : Decl) :
    (decl.rename r).env (env.rename r) = (decl.env env).rename r := by
  cases decl with
  | var decl => exact Env.declareAll_rename hr .variable env [decl]
  | fn decl => exact decl.env_rename hr
  | struct decl => exact decl.env_rename hr

theorem sites_rename (decl : Decl) :
    (decl.rename r).sites (env.rename r) = (decl.sites env).map (Site.rename r) := by
  cases decl with
  | var decl => exact decl.sites_rename hr
  | fn decl => exact decl.sites_rename hr
  | struct decl => exact decl.sites_rename hr

theorem sitesAll_rename (decls : List Decl) :
    sitesAll (env.rename r) (decls.map (Decl.rename r)) =
      (sitesAll env decls).map (Site.rename r) := by
  induction decls generalizing env with
  | nil => rfl
  | cons decl decls ih =>
      rw [List.map_cons, sitesAll, sitesAll, env_rename hr, ih, sites_rename hr, List.map_append]

theorem foldl_env_rename (decls : List Decl) :
    (decls.map (Decl.rename r)).foldl Decl.env (env.rename r) =
      (decls.foldl Decl.env env).rename r := by
  induction decls generalizing env with
  | nil => rfl
  | cons decl decls ih => rw [List.map_cons, List.foldl_cons, List.foldl_cons, env_rename hr, ih]

end Decl

/-! ## What is reported and recorded -/

namespace Site

variable (hr : Function.Injective r)
include hr

theorem errors_rename (x : Site) : (x.rename r).errors = x.errors.map (SemanticError.rename r) := by
  cases x with
  | use id found => cases found <;> rfl
  | member basePos base field =>
      rw [rename, errors, errors, Symbol.structName?_rename, Ident.name_rename,
        Symbol.member_rename hr]
      cases base.structName? with
      | none => rfl
      | some _ => cases base.member field.name <;> rfl
  | typeName name found => cases found <;> rfl
  | declared name verdict => cases verdict <;> rfl
  | passedOver name => rfl

theorem meanings_rename (x : Site) :
    (x.rename r).meanings = x.meanings.map fun entry => (entry.1, entry.2.rename r) := by
  cases x with
  | use id found => cases found <;> rfl
  | member basePos base field =>
      rw [rename, meanings, meanings, Symbol.structName?_rename, Ident.name_rename,
        Symbol.member_rename hr]
      cases base.structName? with
      | none => rfl
      | some _ => cases base.member field.name <;> rfl
  | typeName name found => cases found <;> rfl
  | declared name verdict => cases verdict <;> rfl
  | passedOver name => rfl

end Site

namespace Resolutions

theorem record_rename (table : Resolutions) (pos : Position) (symbol : Symbol) :
    (table.rename r).record pos (symbol.rename r) = (table.record pos symbol).rename r := by
  obtain ⟨entries⟩ := table
  simp only [record, rename, mk.injEq]
  induction entries with
  | nil => rfl
  | cons entry entries ih =>
      obtain ⟨other, meaning⟩ := entry
      simp only [List.map_cons, enter]
      split
      · rw [ih, List.map_cons]
      · split <;> rfl

theorem foldl_record_rename (entries : List (Position × Symbol)) (table : Resolutions) :
    (entries.map fun entry => (entry.1, entry.2.rename r)).foldl
        (fun table entry => table.record entry.1 entry.2) (table.rename r) =
      (entries.foldl (fun table entry => table.record entry.1 entry.2) table).rename r := by
  induction entries generalizing table with
  | nil => rfl
  | cons entry entries ih => rw [List.map_cons, List.foldl_cons, List.foldl_cons, record_rename, ih]

end Resolutions

/-- What lexical scoping finds out about a renamed program is what it finds out about the program,
renamed. -/
theorem Program.lexical_rename (hr : Function.Injective r) (p : Program) :
    (p.rename r).lexical = p.lexical.rename r := by
  have htop : Env.top = Env.top.rename r := rfl
  have hsites : (p.rename r).sites = p.sites.map (Site.rename r) := by
    rw [sites, htop]
    exact Decl.sitesAll_rename hr p.decls
  have henv : (p.rename r).env = p.env.rename r := by
    rw [env, htop]
    exact Decl.foldl_env_rename hr p.decls
  have herrors : (p.rename r).sites.flatMap Site.errors =
      (p.sites.flatMap Site.errors).map (SemanticError.rename r) := by
    rw [hsites, List.flatMap_map, List.map_flatMap]
    exact congrArg (List.flatMap · p.sites) (funext (Site.errors_rename hr))
  have hmeanings : (p.rename r).sites.flatMap Site.meanings =
      (p.sites.flatMap Site.meanings).map fun entry => (entry.1, entry.2.rename r) := by
    rw [hsites, List.flatMap_map, List.map_flatMap]
    exact congrArg (List.flatMap · p.sites) (funext (Site.meanings_rename hr))
  rw [lexical, lexical, Analysis.add, Analysis.add, henv, Env.stack_rename, herrors, hmeanings]
  exact congrArg (Analysis.mk _ _) (Resolutions.foldl_record_rename _ .empty)

/-- Resolution commutes with renaming.  If a renaming tells names apart, the analysis of a
renamed program is the analysis of the program, renamed: the same misuses in the same order, the
same places with a meaning, and the same bindings, each with the other names in it. -/
theorem Program.analyze_rename (hr : Function.Injective r) (p : Program) :
    ∃ a, p.analyze = .ok a ∧ (p.rename r).analyze = .ok (a.rename r) := by
  refine ⟨p.lexical, p.analyze_eq_lexical, ?_⟩
  rw [analyze_eq_lexical, lexical_rename hr]

/-- A struct and its field change names, and so does a field that the struct does not have. -/
theorem Program.analyze_rename_swap :
    let program (struct field : String) : Program := ⟨[
      .struct ⟨⟨struct, ⟨1, 8⟩⟩, [⟨.int, ⟨field, ⟨1, 14⟩⟩⟩]⟩,
      .fn ⟨.void, ⟨"f", ⟨2, 6⟩⟩, [], .mk [⟨.struct ⟨struct, ⟨2, 17⟩⟩, ⟨"p", ⟨2, 19⟩⟩⟩]
        [.act .assign (.assign ⟨2, 21⟩
          (.dot ⟨2, 21⟩ (.id ⟨2, 21⟩ ⟨"p", ⟨2, 21⟩⟩) ⟨field, ⟨2, 23⟩⟩)
          (.dot ⟨2, 25⟩ (.id ⟨2, 25⟩ ⟨"p", ⟨2, 25⟩⟩) ⟨struct, ⟨2, 27⟩⟩))]⟩]⟩
    let swap := Equiv.swap "P" "q"
    ∃ a, (program "P" "q").analyze = .ok a ∧ (program "q" "P").analyze = .ok (a.rename swap) ∧
      a.errors = [.invalidStructField "P" ⟨2, 27⟩] ∧
      (a.rename swap).errors = [.invalidStructField "q" ⟨2, 27⟩] := by
  intro program swap
  have hswapped : (program "P" "q").rename swap = program "q" "P" := rfl
  obtain ⟨a, ha, hrenamed⟩ := analyze_rename swap.injective (program "P" "q")
  have hlexical : a = (program "P" "q").lexical :=
    Except.ok.inj (ha.symm.trans (analyze_eq_lexical _))
  rw [hswapped] at hrenamed
  refine ⟨a, ha, hrenamed, ?_, ?_⟩
  · rw [hlexical]
    rfl
  · rw [hlexical]
    rfl

end NameCheck
