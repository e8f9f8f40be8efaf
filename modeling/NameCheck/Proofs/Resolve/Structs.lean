import Mathlib.Data.List.Induction
import NameCheck.Proofs.Resolve.Coverage

/-!
# Structs and their instances

Structs are declared at the top only, and a name that is bound there keeps its meaning.  Whatever
scope a symbol is bound in, an instance of a struct carries the field table that the struct has
when all of the program is known; only inside a struct its own instances carry none.
-/

namespace NameCheck

/-- Which field tables go with the names of structs. -/
abbrev Tables := String → Option (ScopeStack Symbol) → Prop

/-- A symbol that a name is bound to: if it is a struct, its field table goes with the name, and
if it is an instance of a struct, its field table goes with that struct. -/
structure Symbol.Grounded (T : Tables) (name : String) (symbol : Symbol) : Prop where
  ofStruct : ∀ fields, symbol = .structDecl fields → T name fields
  ofInstance : ∀ struct, symbol.structName? = some struct → T struct symbol.fields?

/-- What a scope binds is grounded. -/
def Frame.Grounded (T : Tables) (frame : Frame Symbol) : Prop :=
  ∀ name symbol, frame.lookup name = some symbol → symbol.Grounded T name

/-- What the scopes of an environment bind is grounded. -/
def Env.Grounded (T : Tables) (env : Env) : Prop :=
  ∀ frame ∈ env.frames, frame.Grounded T

/-- What a site finds is grounded: the struct that a type names, and the symbol that a declared
name is bound to. -/
def Site.Grounded (T : Tables) : Site → Prop
  | .typeName name (some fields) => T name.name fields
  | .declared _ (.bound symbol) =>
    ∀ struct, symbol.structName? = some struct → T struct symbol.fields?
  | _ => True

/-- What some sites find is grounded. -/
def Site.AllGrounded (T : Tables) (xs : List Site) : Prop :=
  ∀ x ∈ xs, x.Grounded T

section Grounding

variable {T T' : Tables} {env : Env} {frame : Frame Symbol} {name : String} {symbol : Symbol}
  {role : Role} {type : TypeSpec} {fields : Option (ScopeStack Symbol)}

theorem Symbol.Grounded.mono (hT : ∀ name fields, T name fields → T' name fields)
    (h : symbol.Grounded T name) : symbol.Grounded T' name where
  ofStruct := fun fields hs => hT _ _ (h.ofStruct fields hs)
  ofInstance := fun struct hs => hT _ _ (h.ofInstance struct hs)

namespace Site.AllGrounded

variable {x : Site} {xs ys : List Site}

theorem nil : AllGrounded T [] := by
  intro x hx
  cases hx

theorem single (h : x.Grounded T) : AllGrounded T [x] := by
  intro y hy
  obtain rfl := List.mem_singleton.mp hy
  exact h

theorem append (hx : AllGrounded T xs) (hy : AllGrounded T ys) : AllGrounded T (xs ++ ys) :=
  List.forall_mem_append.mpr ⟨hx, hy⟩

end Site.AllGrounded

/-! ## Environments -/

namespace Frame.Grounded

theorem empty : (Frame.empty : Frame Symbol).Grounded T := by
  intro name symbol hl
  cases hl

theorem cons (h : frame.Grounded T) (hs : symbol.Grounded T name) :
    (Frame.mk ((name, symbol) :: frame.entries)).Grounded T := by
  intro other found hl
  rw [Frame.lookup_cons] at hl
  split at hl
  · rename_i hother
    cases hl
    exact hother ▸ hs
  · exact h other found hl

end Frame.Grounded

namespace Env.Grounded

theorem mono (hT : ∀ name fields, T name fields → T' name fields) (h : env.Grounded T) :
    env.Grounded T' :=
  fun frame hframe name symbol hl => (h frame hframe name symbol hl).mono hT

theorem top : Env.top.Grounded T := by
  intro frame hframe
  obtain rfl : frame = .empty := List.mem_singleton.mp hframe
  exact .empty

theorem inner (h : env.Grounded T) : env.inner.Grounded T :=
  h env.inner List.mem_cons_self

theorem enter (h : env.Grounded T) : env.enter.Grounded T := by
  intro frame hframe
  rcases List.mem_cons.mp hframe with rfl | hframe
  · exact .empty
  · exact h frame hframe

theorem within (h : env.Grounded T) (hf : frame.Grounded T) : (env.within frame).Grounded T := by
  intro other hother
  rcases List.mem_cons.mp hother with rfl | hother
  · exact hf
  · exact h other (List.mem_cons_of_mem _ hother)

theorem findStruct (h : env.Grounded T) (hf : env.findStruct name = some fields) :
    T name fields := by
  rw [Env.findStruct] at hf
  split at hf
  · rename_i table hfind
    cases hf
    obtain ⟨_, frame, _, hframes, -, hl⟩ := findIn_eq_some_iff.mp hfind
    have hframe : frame ∈ env.frames := by simp [hframes]
    exact (h frame hframe name _ hl).ofStruct fields rfl
  · cases hf

end Env.Grounded

/-! ## Declarations -/

/-- A name that is declared with a type has the struct of the type. -/
theorem TypeSpec.structName?_symbolIn (h : type.symbolIn role env = some symbol) :
    symbol.structName? = type.structName?.map Ident.name ∧
      ∀ struct, type.structName? = some struct →
        env.findStruct struct.name = some symbol.fields? := by
  cases type with
  | struct struct =>
      obtain ⟨fields, hfields, rfl⟩ := Option.map_eq_some_iff.mp h
      have hfields? : (role.symbol (.struct struct) fields).fields? = fields := by
        cases role <;> rfl
      refine ⟨by cases role <;> rfl, ?_⟩
      rintro _ ⟨⟩
      rw [hfields?]
      exact hfields
  | _ =>
      cases h
      exact ⟨by cases role <;> rfl, by rintro struct ⟨⟩⟩

/-- A type that is known is not reported. -/
theorem TypeSpec.errors_sites (h : type.symbolIn role env = some symbol) :
    (type.sites env).flatMap Site.errors = [] := by
  cases type with
  | struct struct =>
      obtain ⟨fields, hfields, -⟩ := Option.map_eq_some_iff.mp h
      rw [sites, hfields]
      rfl
  | _ => rfl

/-- What is declared with a type is no struct. -/
theorem TypeSpec.symbolIn_ne_structDecl (h : type.symbolIn role env = some symbol)
    (fields : Option (ScopeStack Symbol)) : symbol ≠ .structDecl fields := by
  cases type with
  | struct struct =>
      obtain ⟨table, -, rfl⟩ := Option.map_eq_some_iff.mp h
      cases role <;> simp [Role.symbol]
  | _ =>
      cases h
      cases role <;> simp [Role.symbol]

theorem TypeSpec.grounded_symbolIn (henv : env.Grounded T)
    (h : type.symbolIn role env = some symbol) : symbol.Grounded T name where
  ofStruct := fun fields hs => absurd hs (symbolIn_ne_structDecl h fields)
  ofInstance := by
    intro struct hs
    obtain ⟨hname, hfields⟩ := structName?_symbolIn h
    rw [hname, Option.map_eq_some_iff] at hs
    obtain ⟨id, hid, rfl⟩ := hs
    exact henv.findStruct (hfields id hid)

theorem TypeSpec.grounded_passedOver (type : TypeSpec) :
    Site.AllGrounded T type.passedOver := by
  cases type with
  | struct name => exact .single trivial
  | _ => exact .nil

namespace VarDecl

variable {decl : VarDecl} {decls : List VarDecl} {envOf : Frame Symbol → Env}

theorem grounded_of_bound (henv : env.Grounded T)
    (h : decl.verdict role env frame = .bound symbol) : symbol.Grounded T name :=
  TypeSpec.grounded_symbolIn henv (verdict_eq_bound_iff.mp h).2.2.1

theorem grounded_extend (henv : env.Grounded T) (hframe : frame.Grounded T) :
    (decl.extend role env frame).Grounded T := by
  intro name symbol hl
  rcases lookup_extend.mp hl with hl | ⟨-, hv⟩
  · exact hframe name symbol hl
  · exact grounded_of_bound henv hv

theorem grounded_extendAll (henv : ∀ frame, frame.Grounded T → (envOf frame).Grounded T)
    (hframe : frame.Grounded T) : (extendAll role envOf frame decls).Grounded T := by
  induction decls generalizing frame with
  | nil => exact hframe
  | cons decl decls ih => exact ih (grounded_extend (henv frame hframe) hframe)

theorem grounded_sites (henv : env.Grounded T) :
    Site.AllGrounded T (decl.sites role env frame) := by
  have htype : Site.AllGrounded T (decl.type.sites env) := by
    cases decl.type with
    | struct name =>
        refine .single ?_
        cases hf : env.findStruct name.name with
        | none => trivial
        | some fields => exact henv.findStruct hf
    | _ => exact .nil
  rw [sites]
  cases hv : decl.verdict role env frame with
  | bound symbol =>
      have hbound : symbol.Grounded T decl.name.name := grounded_of_bound henv hv
      exact htype.append (.single hbound.ofInstance)
  | hidden => exact (TypeSpec.grounded_passedOver decl.type).append (.single trivial)
  | _ => exact htype.append (.single trivial)

theorem grounded_sitesAll (henv : ∀ frame, frame.Grounded T → (envOf frame).Grounded T)
    (hframe : frame.Grounded T) : Site.AllGrounded T (sitesAll role envOf frame decls) := by
  induction decls generalizing frame with
  | nil => exact .nil
  | cons decl decls ih =>
      have hframe' : (decl.extend role (envOf frame) frame).Grounded T :=
        grounded_extend (henv frame hframe) hframe
      have hrest := ih hframe'
      exact (grounded_sites (henv frame hframe)).append hrest

end VarDecl

theorem Env.Grounded.declareAll (h : env.Grounded T) (role : Role) (decls : List VarDecl) :
    (env.declareAll role decls).Grounded T :=
  h.within (VarDecl.grounded_extendAll (fun _ => h.within) h.inner)

/-! ## Expressions, statements and blocks -/

mutual

theorem grounded_expr : ∀ e : Expr, Site.AllGrounded T (e.sites env)
  | .int .. | .str .. | .bool .. => .nil
  | .id _ _ => .single trivial
  | .dot _ base _ => (grounded_expr base).append (.single trivial)
  | .assign _ lhs rhs | .binary _ _ lhs rhs => (grounded_expr rhs).append (grounded_expr lhs)
  | .call _ _ args => (grounded_exprs args).append (.single trivial)
  | .unary _ _ operand => grounded_expr operand

theorem grounded_exprs : ∀ es : List Expr, Site.AllGrounded T (Expr.sitesAll env es)
  | [] => .nil
  | e :: es => (grounded_expr e).append (grounded_exprs es)

end

mutual

theorem grounded_stmt {env : Env} (henv : env.Grounded T) :
    ∀ st : Stmt, Site.AllGrounded T (st.sites env)
  | .act _ e => grounded_expr e
  | .ifThen cond body | .loop _ cond body =>
    (grounded_expr cond).append (grounded_block henv.enter body)
  | .ifElse cond thenBlock elseBlock =>
    (grounded_expr cond).append
      ((grounded_block henv.enter thenBlock).append (grounded_block henv.enter elseBlock))
  | .ret none => .nil
  | .ret (some e) => grounded_expr e

theorem grounded_block {env : Env} (henv : env.Grounded T) :
    ∀ b : Block, Site.AllGrounded T (b.sites env)
  | .mk decls stmts => by
      have hdecls : Site.AllGrounded T (VarDecl.sitesAll .variable env.within env.inner decls) :=
        VarDecl.grounded_sitesAll (fun _ => henv.within) henv.inner
      exact hdecls.append (grounded_stmts (henv.declareAll .variable decls) stmts)

theorem grounded_stmts {env : Env} (henv : env.Grounded T) :
    ∀ ss : List Stmt, Site.AllGrounded T (Stmt.sitesAll env ss)
  | [] => .nil
  | st :: ss => (grounded_stmt henv st).append (grounded_stmts henv ss)

end

/-! ## Declarations at the top -/

namespace Env.Grounded

theorem fnDecl (h : env.Grounded T) (decl : FnDecl) : (decl.env env).Grounded T := by
  have hsymbol : decl.symbol.Grounded T decl.name.name :=
    ⟨fun _ => nofun, fun _ => nofun⟩
  refine h.within ?_
  rw [FnDecl.verdict, Verdict.ofSymbol]
  split
  · exact h.inner.cons hsymbol
  · exact h.inner

theorem inside (h : env.Grounded T) (decl : FnDecl) : (decl.inside env).Grounded T :=
  ((h.fnDecl decl).enter).declareAll .formal decl.formals

theorem withFields (h : env.Grounded T) (decl : StructDecl) (hT : T decl.name.name fields) :
    (decl.withFields env fields).Grounded T := by
  refine h.within (h.inner.cons ⟨fun other hs => ?_, fun struct hs => ?_⟩)
  · cases hs
    exact hT
  · cases hs

end Env.Grounded

theorem grounded_fnDecl (henv : env.Grounded T) (decl : FnDecl) :
    Site.AllGrounded T (decl.sites env) := by
  have hname : (Site.declared decl.name (decl.verdict env)).Grounded T := by
    rw [FnDecl.verdict, Verdict.ofSymbol]
    split
    · intro struct hs
      cases hs
    · trivial
  have henv' := (henv.fnDecl decl).enter
  have hformals : Site.AllGrounded T
      (VarDecl.sitesAll .formal (decl.env env).enter.within .empty decl.formals) :=
    VarDecl.grounded_sitesAll (fun _ => henv'.within) .empty
  have hbody := grounded_block (henv.inside decl) decl.body
  have hrest := (Site.AllGrounded.single hname).append (hformals.append hbody)
  exact (TypeSpec.grounded_passedOver decl.returns).append hrest

theorem TypeSpec.mem_passedOver {x : Site} (hx : x ∈ type.passedOver) :
    ∃ name, x = .passedOver name := by
  cases type with
  | struct name => exact ⟨name, List.mem_singleton.mp hx⟩
  | _ => cases hx

/-- If a struct finds its name taken, nothing is looked up or bound at its sites. -/
theorem StructDecl.mem_sites_of_taken {decl : StructDecl} {x : Site}
    (h : env.inner.lookup decl.name.name = some symbol) (hx : x ∈ decl.sites env) :
    x = .declared decl.name .taken ∨ ∃ name, x = .passedOver name := by
  rw [sites, h] at hx
  rcases List.mem_cons.mp hx with rfl | hx
  · exact Or.inl rfl
  · obtain ⟨field, -, hx⟩ := List.mem_flatMap.mp hx
    rcases List.mem_append.mp hx with hx | hx
    · exact Or.inr (TypeSpec.mem_passedOver hx)
    · exact Or.inr ⟨field.name, List.mem_singleton.mp hx⟩

/-- The field tables of the structs at the top, if `env` is the environment there. -/
def Env.tables (env : Env) : Tables :=
  fun name fields => env.inner.lookup name = some (.structDecl fields)

/-- The field tables that are known inside a struct: its own is not there yet. -/
def StructDecl.tablesInside (env : Env) (decl : StructDecl) : Tables :=
  fun name fields => env.tables name fields ∨ name = decl.name.name ∧ fields = none

/-- The field tables that are known inside a declaration at the top. -/
def Decl.tablesInside (env : Env) : Decl → Tables
  | .struct decl => decl.tablesInside env
  | _ => env.tables

theorem StructDecl.grounded_inside (henv : env.Grounded env.tables) (decl : StructDecl) :
    (decl.withFields env none).Grounded (decl.tablesInside env) :=
  (henv.mono fun _ _ => Or.inl).withFields decl (Or.inr ⟨rfl, rfl⟩)

theorem grounded_structDecl (henv : env.Grounded env.tables) (decl : StructDecl) :
    Site.AllGrounded (decl.tablesInside env) (decl.sites env) := by
  rw [StructDecl.sites]
  split
  · have hfields : Site.AllGrounded (decl.tablesInside env)
        (VarDecl.sitesAll .variable (fun _ => decl.withFields env none) .empty decl.fields) :=
      VarDecl.grounded_sitesAll (fun _ _ => decl.grounded_inside henv) .empty
    exact hfields.append (.single fun _ h => by cases h)
  · have hfield (field : VarDecl) : Site.AllGrounded (decl.tablesInside env)
        (field.type.passedOver ++ [.passedOver field.name]) :=
      (TypeSpec.grounded_passedOver field.type).append (.single trivial)
    intro x hx
    rcases List.mem_cons.mp hx with rfl | hx
    · trivial
    · obtain ⟨field, -, hx⟩ := List.mem_flatMap.mp hx
      exact hfield field x hx

theorem grounded_decl (henv : env.Grounded env.tables) (d : Decl) :
    Site.AllGrounded (d.tablesInside env) (d.sites env) := by
  cases d with
  | var decl => exact VarDecl.grounded_sites henv
  | fn decl => exact grounded_fnDecl henv decl
  | struct decl => exact grounded_structDecl henv decl

/-- A name that is bound at the top keeps its meaning. -/
theorem Decl.lookup_env_of_lookup (h : env.inner.lookup name = some symbol) (d : Decl) :
    (d.env env).inner.lookup name = some symbol := by
  cases d with
  | var decl =>
      rw [Decl.env, Env.declareAll]
      exact VarDecl.lookup_extendAll_of_lookup h
  | fn decl =>
      change ((decl.verdict env).extend env.inner decl.name.name).lookup name = some symbol
      rw [FnDecl.verdict, Verdict.ofSymbol]
      cases hl : env.inner.lookup decl.name.name with
      | some other => exact h
      | none =>
          rw [Verdict.extend, Frame.lookup_cons, if_neg, h]
          rintro rfl
          rw [hl] at h
          cases h
  | struct decl =>
      rw [Decl.env, StructDecl.env]
      cases hl : env.inner.lookup decl.name.name with
      | some other => exact h
      | none =>
          change (Frame.mk (_ :: env.inner.entries)).lookup name = some symbol
          rw [Frame.lookup_cons, if_neg, h]
          rintro rfl
          rw [hl] at h
          cases h

theorem Decl.lookup_foldl_of_lookup (h : env.inner.lookup name = some symbol)
    (decls : List Decl) : (decls.foldl Decl.env env).inner.lookup name = some symbol := by
  induction decls generalizing env with
  | nil => exact h
  | cons d decls ih => exact ih (d.lookup_env_of_lookup h)

theorem Env.Grounded.decl (henv : env.Grounded env.tables) (d : Decl) :
    (d.env env).Grounded (d.env env).tables := by
  have hkept : env.Grounded (d.env env).tables :=
    henv.mono fun _ _ hl => d.lookup_env_of_lookup hl
  cases d with
  | var decl => exact hkept.declareAll .variable [decl]
  | fn decl => exact hkept.fnDecl decl
  | struct decl =>
      revert hkept
      rw [Decl.env, StructDecl.env]
      split
      · intro hkept
        refine hkept.withFields decl ?_
        exact (Frame.lookup_cons _ _ _).trans (if_pos rfl)
      · exact id

theorem Decl.sitesAll_append (decls decls' : List Decl) :
    sitesAll env (decls ++ decls') =
      sitesAll env decls ++ sitesAll (decls.foldl Decl.env env) decls' := by
  induction decls generalizing env with
  | nil => rfl
  | cons d decls ih =>
      rw [List.cons_append, sitesAll, ih, sitesAll, List.append_assoc]
      rfl

end Grounding

namespace Program

variable {p : Program} {before after : List Decl} {d : Decl}

/-! ## Places in a program -/

theorem env_append (decls decls' : List Decl) :
    env ⟨decls ++ decls'⟩ = decls'.foldl Decl.env (env ⟨decls⟩) :=
  List.foldl_append

/-- What every declaration keeps at the top holds in the environment of a program. -/
theorem env_induction {motive : Env → Prop} (top : motive .top)
    (decl : ∀ env d, motive env → motive (Decl.env env d)) (p : Program) : motive p.env := by
  have hall : ∀ (decls : List Decl) (env : Env), motive env →
      motive (decls.foldl Decl.env env) := by
    intro decls
    induction decls with
    | nil => exact fun _ h => h
    | cons d decls ih => exact fun env h => ih (d.env env) (decl env d h)
  exact hall p.decls .top top

theorem known_env (p : Program) : p.env.Known :=
  env_induction (motive := Env.Known) .top (fun _ d h => h.decl d) p

/-- In every environment at the top what is bound is grounded. -/
theorem grounded_env (p : Program) : p.env.Grounded p.env.tables :=
  env_induction (motive := fun env => env.Grounded env.tables) .top
    (fun _ d h => h.decl d) p

/-- A name that is bound after some declarations of a program keeps its meaning. -/
theorem lookup_env_of_before {name : String} {symbol : Symbol} {decls : List Decl}
    (h : (env ⟨decls⟩).inner.lookup name = some symbol) (decls' : List Decl) :
    (env ⟨decls ++ decls'⟩).inner.lookup name = some symbol := by
  rw [env_append]
  exact Decl.lookup_foldl_of_lookup h decls'

/-- The sites of a declaration are sites of the program. -/
theorem sites_subset (h : p.decls = before ++ d :: after) :
    d.sites (env ⟨before⟩) ⊆ p.sites := by
  intro x hx
  rw [sites, h, Decl.sitesAll_append]
  exact List.mem_append_right _ (List.mem_append_left _ hx)

/-- An occurrence in a declaration is settled at one of its sites. -/
theorem exists_settles_in (h : p.decls = before ++ d :: after) {o : Occurrence}
    (ho : o ∈ d.occurrences) : ∃ x ∈ d.sites (env ⟨before⟩), Settles p.sites o x := by
  have hhides : (Owner.variable []).Hides p.sites (env ⟨before⟩).inner :=
    env_induction (motive := fun env => (Owner.variable []).Hides p.sites env.inner)
      Owner.hides_empty (fun _ d h => h.decl d) ⟨before⟩
  exact (covers_decl (known_env ⟨before⟩) hhides d (sites_subset h)).2 o ho

/-! ## Accepted structs -/

/-- The structs that a program declares. -/
def structs (p : Program) : List StructDecl :=
  p.decls.filterMap fun
    | .struct struct => some struct
    | _ => none

/-- The variables that a program declares at the top. -/
def globals (p : Program) : List VarDecl :=
  p.decls.filterMap fun
    | .var decl => some decl
    | _ => none

theorem mem_structs {struct : StructDecl} : struct ∈ p.structs ↔ .struct struct ∈ p.decls := by
  rw [structs, List.mem_filterMap]
  constructor
  · rintro ⟨d, hd, heq⟩
    cases d <;> cases heq
    exact hd
  · exact fun h => ⟨_, h, rfl⟩

theorem mem_globals {decl : VarDecl} : decl ∈ p.globals ↔ .var decl ∈ p.decls := by
  rw [globals, List.mem_filterMap]
  constructor
  · rintro ⟨d, hd, heq⟩
    cases d <;> cases heq
    exact hd
  · exact fun h => ⟨_, h, rfl⟩

/-- A struct of a program whose name is free in the environment `env` that is there before it. -/
def Accepts (p : Program) (env : Env) (struct : StructDecl) : Prop :=
  ∃ before after, p.decls = before ++ .struct struct :: after ∧ env = Program.env ⟨before⟩ ∧
    env.inner.lookup struct.name.name = none

/-- The field table that a struct got is the one that its name goes with at the end. -/
theorem Accepts.tables {env : Env} {struct : StructDecl} (h : p.Accepts env struct) :
    p.env.tables struct.name.name (some (struct.table env)) := by
  obtain ⟨before, after, hdecls, rfl, hfree⟩ := h
  have hhere : (Program.env ⟨before ++ [.struct struct]⟩).inner.lookup struct.name.name =
      some (.structDecl (some (struct.table (Program.env ⟨before⟩)))) := by
    rw [env_append]
    change (struct.env (Program.env ⟨before⟩)).inner.lookup struct.name.name = _
    rw [StructDecl.env, hfree]
    exact (Frame.lookup_cons _ _ _).trans (if_pos rfl)
  have hlater := lookup_env_of_before hhere after
  rw [List.append_assoc, List.singleton_append, ← hdecls] at hlater
  exact hlater

theorem Accepts.append {decls : List Decl} {env : Env} {struct : StructDecl}
    (h : Accepts ⟨decls⟩ env struct) (decls' : List Decl) :
    Accepts ⟨decls ++ decls'⟩ env struct := by
  obtain ⟨before, after, rfl, henv, hfree⟩ := h
  exact ⟨before, after ++ decls', by simp, henv, hfree⟩

/-- A field table at the top is that of an accepted struct. -/
theorem exists_accepts {name : String} {fields : Option (ScopeStack Symbol)}
    (h : p.env.tables name fields) :
    ∃ env struct, p.Accepts env struct ∧ struct.name.name = name ∧
      fields = some (struct.table env) := by
  obtain ⟨decls⟩ := p
  induction decls using List.reverseRecOn with
  | nil => cases h
  | append_singleton decls d ih =>
      have hearlier (h : (env ⟨decls⟩).tables name fields) :
          ∃ env struct, Accepts ⟨decls ++ [d]⟩ env struct ∧ struct.name.name = name ∧
            fields = some (struct.table env) := by
        obtain ⟨env, struct, haccepts, hname, hfields⟩ := ih h
        exact ⟨env, struct, haccepts.append _, hname, hfields⟩
      rw [Env.tables, env_append] at h
      cases d with
      | var decl =>
          rcases VarDecl.lookup_extend.mp h with h | ⟨-, hv⟩
          · exact hearlier h
          · exact absurd rfl (TypeSpec.symbolIn_ne_structDecl
              (VarDecl.verdict_eq_bound_iff.mp hv).2.2.1 fields)
      | fn decl =>
          change ((decl.verdict (env ⟨decls⟩)).extend (env ⟨decls⟩).inner
            decl.name.name).lookup name = _ at h
          rw [FnDecl.verdict, Verdict.ofSymbol] at h
          split at h
          · rw [Verdict.extend, Frame.lookup_cons] at h
            split at h
            · cases h
            · exact hearlier h
          · exact hearlier h
      | struct struct =>
          change (struct.env (env ⟨decls⟩)).inner.lookup name = _ at h
          rw [StructDecl.env] at h
          split at h
          · rename_i hfree
            change (Frame.mk (_ :: (env ⟨decls⟩).inner.entries)).lookup name = _ at h
            rw [Frame.lookup_cons] at h
            split at h
            · rename_i hname
              cases h
              exact ⟨_, struct, ⟨decls, [], rfl, rfl, hfree⟩, hname.symm, rfl⟩
            · exact hearlier h
          · exact hearlier h

end Program

end NameCheck
