import NameCheck.Proofs.Resolve.Structs

/-!
# What is bound at the top

Between its calls an analysis has one scope open, and this scope binds what the programs that were
analysed declare at the top.  It is well formed: formals and names without a meaning are not to be
found in it or in a field table that can be reached from it, every struct has its field table, and
every instance of a struct that carries a field table carries that of its struct.  What it binds
once stays.
-/

namespace NameCheck

/-! ## Well-formed scopes -/

namespace Symbol

/-- What a name can stand for in a struct: a variable of type `int` or `bool`, or an instance of a
struct. -/
inductive IsField : Symbol → Prop where
  | int : IsField (.var .int none)
  | bool : IsField (.var .bool none)
  | structVar {struct : String} {fields : Option (ScopeStack Symbol)} :
      IsField (.structVar struct fields)

/-- What a name can stand for at the top: what it can in a struct, a function or a struct. -/
inductive IsGlobal : Symbol → Prop where
  | field {symbol : Symbol} (h : symbol.IsField) : IsGlobal symbol
  | fn {returns : Ty} {formals : List Symbol} (h : ∀ formal ∈ formals, formal.table? = none) :
      IsGlobal (.fn returns formals)
  | structDecl {fields : Option (ScopeStack Symbol)} : IsGlobal (.structDecl fields)

/-- A field table is attached to a symbol, or to one of its formals. -/
def Attaches (symbol : Symbol) (table : ScopeStack Symbol) : Prop :=
  symbol.table? = some table ∨ ∃ formal ∈ symbol.formals, formal.table? = some table

end Symbol

namespace Frame

/-- A name is bound in a scope, or in a field table that can be reached from it. -/
inductive Binds (global : Frame Symbol) : String → Symbol → Prop where
  | here {name : String} {symbol : Symbol} (h : global.lookup name = some symbol) :
      Binds global name symbol
  | inside {outer name : String} {holder symbol : Symbol} {table : ScopeStack Symbol}
      {frame : Frame Symbol} (hb : Binds global outer holder) (ht : holder.Attaches table)
      (hf : frame ∈ table.frames) (hl : frame.lookup name = some symbol) :
      Binds global name symbol

/-- The scope at the top is well formed.  No name is bound to a formal, to nothing, or to a variable
of a type other than `int` and `bool`, not even in a field table.  A struct has a field table with
one scope.  An instance of a struct is one of a struct at the top; if it carries a field table, it
is the one of the struct. -/
structure WellFormed (global : Frame Symbol) : Prop where
  bindings : ∀ name symbol, global.Binds name symbol → symbol.IsGlobal
  structs : ∀ name fields, global.lookup name = some (.structDecl fields) →
    ∃ frame, fields = some (.ofFrame frame) ∧
      ∀ field symbol, frame.lookup field = some symbol → symbol.IsField
  instances : ∀ name struct fields, global.Binds name (.structVar struct fields) →
    ∃ table, global.lookup struct = some (.structDecl (some table)) ∧
      ∀ own, fields = some own → own = table

end Frame

/-! ## What declarations bind -/

section Declarations

variable {env : Env} {frame : Frame Symbol} {name : String} {symbol : Symbol}

theorem TypeSpec.isField_symbolIn {type : TypeSpec} (hv : type.isVoid = false)
    (h : type.symbolIn .variable env = some symbol) : symbol.IsField := by
  cases type with
  | int =>
      cases h
      exact .int
  | bool =>
      cases h
      exact .bool
  | void => cases hv
  | struct struct =>
      obtain ⟨fields, -, rfl⟩ := Option.map_eq_some_iff.mp h
      exact .structVar

theorem VarDecl.isField_of_bound {decl : VarDecl}
    (h : decl.verdict .variable env frame = .bound symbol) : symbol.IsField := by
  obtain ⟨hv, -, hs, -⟩ := verdict_eq_bound_iff.mp h
  exact TypeSpec.isField_symbolIn hv hs

theorem FnDecl.isGlobal_symbol (decl : FnDecl) : decl.symbol.IsGlobal := by
  refine .fn fun formal h => ?_
  obtain ⟨_, -, rfl⟩ := List.mem_map.mp h
  rfl

/-- A declaration at the top binds its own name at most. -/
theorem Decl.cases_of_lookup_env {d : Decl} (h : (d.env env).inner.lookup name = some symbol) :
    env.inner.lookup name = some symbol ∨ symbol.IsGlobal := by
  cases d with
  | var decl =>
      refine (VarDecl.lookup_extend.mp h).imp_right fun ⟨_, hv⟩ => ?_
      exact .field (VarDecl.isField_of_bound hv)
  | fn decl =>
      change ((decl.verdict env).extend env.inner decl.name.name).lookup name = some symbol at h
      rw [FnDecl.verdict, Verdict.ofSymbol] at h
      split at h
      · rw [Verdict.extend, Frame.lookup_cons] at h
        split at h
        · cases h
          exact Or.inr decl.isGlobal_symbol
        · exact Or.inl h
      · exact Or.inl h
  | struct decl =>
      rw [Decl.env, StructDecl.env] at h
      split at h
      · change (Frame.mk (_ :: env.inner.entries)).lookup name = some symbol at h
        rw [Frame.lookup_cons] at h
        split at h
        · cases h
          exact Or.inr .structDecl
        · exact Or.inl h
      · exact Or.inl h

/-- Declarations at the top neither open nor close scopes. -/
theorem Decl.outer_env (d : Decl) : (d.env env).outer = env.outer := by
  cases d with
  | var | fn => rfl
  | struct decl =>
      rw [Decl.env, StructDecl.env]
      split <;> rfl

end Declarations

/-! ## The scope at the top of a program -/

namespace Program

variable {p : Program} {name field struct : String} {symbol : Symbol} {frame : Frame Symbol}
  {fields : Option (ScopeStack Symbol)} {table : ScopeStack Symbol}

theorem outer_env (p : Program) : p.env.outer = [] :=
  env_induction (motive := fun env => env.outer = []) rfl (fun _ d h => d.outer_env.trans h) p

theorem stack_env (p : Program) : p.env.stack = .ofFrame p.env.inner := by
  rw [Env.stack, Env.frames, outer_env]
  rfl

theorem isGlobal_of_lookup (h : p.env.inner.lookup name = some symbol) : symbol.IsGlobal := by
  refine env_induction (motive := fun env => ∀ name symbol,
    env.inner.lookup name = some symbol → symbol.IsGlobal) ?_ ?_ p name symbol h
  · intro name symbol h
    cases h
  · intro env d ih name symbol h
    exact (Decl.cases_of_lookup_env h).elim (ih name symbol) id

/-- What a symbol carries as an instance of a struct is the field table of that struct, if it
carries one. -/
def Instances (p : Program) (symbol : Symbol) : Prop :=
  ∀ struct fields, symbol = .structVar struct fields →
    ∃ table, p.env.tables struct (some table) ∧ ∀ own, fields = some own → own = table

theorem exists_frame (h : p.env.tables name fields) :
    ∃ frame, fields = some (.ofFrame frame) ∧ ∀ field symbol,
      frame.lookup field = some symbol → symbol.IsField ∧ p.Instances symbol := by
  obtain ⟨env, decl, haccepts, -, rfl⟩ := exists_accepts h
  refine ⟨_, rfl, fun field symbol hl => ⟨?_, ?_⟩⟩
  · rcases VarDecl.lookup_extendAll.mp hl with hl | ⟨_, _, _, _, _, hv⟩
    · cases hl
    · exact VarDecl.isField_of_bound hv
  · rintro struct fields rfl
    have ⟨before, after, hdecls, henv, _⟩ := haccepts
    subst henv
    have hgrounded : (Symbol.structVar struct fields).Grounded
        (decl.tablesInside (Program.env ⟨before⟩)) field :=
      VarDecl.grounded_extendAll (fun _ _ => decl.grounded_inside (grounded_env ⟨before⟩)) .empty
        field _ hl
    rcases hgrounded.ofInstance struct rfl with htables | ⟨rfl, hnone⟩
    · obtain ⟨_, _, _, _, rfl⟩ := exists_accepts htables
      have hlater := lookup_env_of_before htables (.struct decl :: after)
      rw [← hdecls] at hlater
      exact ⟨_, hlater, fun own hown => (Option.some.inj hown).symm⟩
    · refine ⟨_, haccepts.tables, fun own hown => ?_⟩
      cases hown.symm.trans hnone

theorem instances_of_lookup (h : p.env.inner.lookup name = some symbol) : p.Instances symbol := by
  rintro struct fields rfl
  have htables : p.env.tables struct fields :=
    ((grounded_env p).inner name _ h).ofInstance struct rfl
  obtain ⟨frame, rfl, -⟩ := exists_frame htables
  exact ⟨_, htables, fun own hown => (Option.some.inj hown).symm⟩

/-- The field tables that are attached to what is bound at the top, or in a struct, are those of
the structs at the top. -/
theorem tables_of_attaches (hs : symbol.IsField ∨ p.env.inner.lookup name = some symbol)
    (hi : p.Instances symbol) (ht : symbol.Attaches table) :
    ∃ struct, p.env.tables struct (some table) := by
  have hglobal : symbol.IsGlobal := hs.elim .field isGlobal_of_lookup
  rcases ht with ht | ⟨formal, hformal, ht⟩
  · cases hglobal with
    | field h =>
        cases h with
        | int | bool => cases ht
        | @structVar struct fields =>
            obtain ⟨table', htables, heq⟩ := hi struct fields rfl
            obtain rfl := heq table ht
            exact ⟨struct, htables⟩
    | fn => cases ht
    | structDecl =>
        cases ht
        rcases hs with h | h
        · cases h
        · exact ⟨name, h⟩
  · cases hglobal with
    | field h => cases h <;> cases hformal
    | fn h =>
        rw [h formal hformal] at ht
        cases ht
    | structDecl => cases hformal

/-- What is bound in a field table that can be reached from the top is bound in the field table of
a struct at the top. -/
theorem cases_of_binds (h : p.env.inner.Binds name symbol) :
    (symbol.IsField ∨ p.env.inner.lookup name = some symbol) ∧ p.Instances symbol := by
  induction h with
  | here hl => exact ⟨Or.inr hl, instances_of_lookup hl⟩
  | inside _ ht hf hl ih =>
      obtain ⟨struct, htables⟩ := tables_of_attaches ih.1 ih.2 ht
      obtain ⟨frame, htable, hfields⟩ := exists_frame htables
      obtain rfl := Option.some.inj htable
      obtain rfl := List.mem_singleton.mp hf
      exact (hfields _ _ hl).imp_left Or.inl

theorem wellFormed_env (p : Program) : p.env.inner.WellFormed where
  bindings := fun _ _ h => (cases_of_binds h).1.elim .field isGlobal_of_lookup
  structs := fun _ _ h => by
    obtain ⟨frame, hframe, hfields⟩ := exists_frame h
    exact ⟨frame, hframe, fun field symbol hl => (hfields field symbol hl).1⟩
  instances := fun _ struct fields h => (cases_of_binds h).2 struct fields rfl

end Program

/-! ## Histories of calls -/

/-- The declarations that a call analyses at the top. -/
def Call.decls : Call → List Decl
  | .program p => p.decls
  | .expr _ => []

theorem Call.visits_steps (call : Call) (env : Env) :
    ∃ xs, Resolve.Visits call.steps env xs (call.decls.foldl Decl.env env) () := by
  cases call with
  | program p => exact ⟨_, Resolve.visits_decls env p.decls⟩
  | expr e => exact ⟨_, Resolve.visits_discard (Resolve.visits_expr e) (Resolve.keeps_expr e)⟩

namespace Analysis

/-- The scope that is open after some calls is that of all declarations that they analysed. -/
theorem scopes_after (calls : List Call) :
    (after calls).scopes = .ofFrame (Program.env ⟨calls.flatMap Call.decls⟩).inner := by
  rw [← Program.stack_env]
  induction calls using List.reverseRecOn with
  | nil => rfl
  | append_singleton calls call ih =>
      have hframed := framed_after calls
      have hdepth : (Program.env ⟨calls.flatMap Call.decls⟩).frames.length = 1 := by
        have hscopes := hframed.scopes.depth
        rwa [ih] at hscopes
      obtain ⟨xs, hvisits⟩ := call.visits_steps (Program.env ⟨calls.flatMap Call.decls⟩)
      have hexec := hvisits (after calls) ih (hdepth ▸ hframed)
      have hlast : after (calls ++ [call]) = (call.steps.exec (after calls)).2 := by
        rw [after, List.foldl_append]
        rfl
      rw [hlast, hexec, List.flatMap_append, List.flatMap_singleton, Program.env_append]
      rfl

/-- The scope at the top is well formed between any two calls, and what a name means in it
never changes: after more calls it means the same, unless it was free. -/
theorem global_wellFormed (calls : List Call) :
    ∃ global, (after calls).scopes = .ofFrame global ∧ global.WellFormed ∧
      ∀ more, ∃ later, (after (calls ++ more)).scopes = .ofFrame later ∧
        ∀ name, global.lookup name = none ∨ later.lookup name = global.lookup name := by
  refine ⟨_, scopes_after calls, Program.wellFormed_env _, fun more => ?_⟩
  refine ⟨_, scopes_after (calls ++ more), fun name => ?_⟩
  rw [List.flatMap_append]
  cases hl : (Program.env ⟨calls.flatMap Call.decls⟩).inner.lookup name with
  | none => exact Or.inl rfl
  | some symbol => exact Or.inr (Program.lookup_env_of_before hl _)

end Analysis

end NameCheck
