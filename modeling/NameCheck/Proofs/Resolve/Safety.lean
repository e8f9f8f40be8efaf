import NameCheck.Check
import NameCheck.Proofs.Resolve.Steps
import NameCheck.Proofs.Scope.Bindings

/-!
# The scope stack is never misused

An analysis that starts with open scopes is not stopped, leaves as many scopes as it found, and on
the way never closes one of those.  The field tables that it attaches to symbols have one frame
each.
-/

namespace NameCheck

/-! ## Field tables -/

namespace Symbol

/-- The field table that is attached to a symbol. -/
def table? : Symbol → Option (ScopeStack Symbol)
  | .structDecl fields => fields
  | symbol => symbol.fields?

theorem table?_of_fields? {symbol : Symbol} {table : ScopeStack Symbol}
    (h : symbol.fields? = some table) : symbol.table? = some table := by
  cases symbol with
  | structDecl fields => cases h
  | _ => exact h

/-- The symbols of the formals of a function. -/
def formals : Symbol → List Symbol
  | .fn _ formals => formals
  | _ => []

/-- The field table that is attached to a symbol has exactly one frame, and so have those that are
attached to the symbols inside. -/
inductive OneFramed : Symbol → Prop where
  | intro {symbol : Symbol} (depth : ∀ t ∈ symbol.table?, t.depth = 1)
      (bound : ∀ t ∈ symbol.table?, ∀ frame ∈ t.frames, ∀ entry ∈ frame.entries,
        OneFramed entry.2)
      (formals : ∀ formal ∈ symbol.formals, OneFramed formal) : OneFramed symbol

end Symbol

/-- A stack of `d` frames that binds symbols with one-framed tables. -/
structure ScopeStack.Framed (d : Nat) (stack : ScopeStack Symbol) : Prop where
  depth : stack.depth = d
  bound : stack.All Symbol.OneFramed

/-- A state with `d` open scopes, in which all attached tables have one frame. -/
structure Analysis.Framed (d : Nat) (s : Analysis) : Prop where
  scopes : s.scopes.Framed d
  resolved : ∀ entry ∈ s.resolutions.entries, entry.2.OneFramed

namespace Symbol

theorem OneFramed.of_table {symbol : Symbol} (h : symbol.OneFramed) {table : ScopeStack Symbol}
    (ht : symbol.table? = some table) : table.Framed 1 := by
  obtain ⟨hdepth, hbound, -⟩ := h
  exact ⟨hdepth table ht, hbound table ht⟩

theorem oneFramed_of_table {symbol : Symbol} (hf : symbol.formals = [])
    (ht : ∀ table ∈ symbol.table?, table.Framed 1) : symbol.OneFramed := by
  refine .intro (fun t h => (ht t h).depth) (fun t h => (ht t h).bound) fun formal h => ?_
  rw [hf] at h
  cases h

theorem oneFramed_of_table_none {symbol : Symbol} (hf : symbol.formals = [])
    (ht : symbol.table? = none) : symbol.OneFramed := by
  apply oneFramed_of_table hf
  intro table htable
  rw [ht] at htable
  cases htable

end Symbol

theorem ScopeStack.Framed.new : (ScopeStack.new : ScopeStack Symbol).Framed 1 :=
  ⟨rfl, .new⟩

theorem Analysis.Framed.new : Analysis.new.Framed 1 :=
  ⟨.new, fun _ h => by cases h⟩

namespace Resolve

variable {α β : Type} {d : Nat} {P Q : α → Prop} {R : β → Prop}

/-- From any state with `d` open scopes the steps end with a value that has a property and leave
`d` open scopes; on the way there are never fewer. -/
def Keeps (d : Nat) (Q : α → Prop) (x : Resolve α) : Prop :=
  ∀ s : Analysis, s.Framed d →
    (∃ a s', x.exec s = (.ok a, s') ∧ s'.Framed d ∧ Q a) ∧ ∀ t ∈ x.trail s, ∃ k, d ≤ k ∧ t.Framed k

/-! ## Putting steps together -/

namespace Keeps

theorem pure {a : α} (h : Q a) : Keeps d Q (pure a) := by
  intro s hs
  refine ⟨⟨a, s, rfl, hs, h⟩, fun t ht => ⟨d, Nat.le_refl d, ?_⟩⟩
  rwa [List.mem_singleton.mp ht]

theorem bind {x : Resolve α} {k : α → Resolve β} (hx : Keeps d P x)
    (hk : ∀ a, P a → Keeps d R (k a)) : Keeps d R (x >>= k) := by
  intro s hs
  obtain ⟨⟨a, s', hexec, hs', ha⟩, htrail⟩ := hx s hs
  obtain ⟨hrest, htrail'⟩ := hk a ha s' hs'
  rw [exec_bind_of_ok hexec]
  refine ⟨hrest, fun t ht => ?_⟩
  rcases mem_trail_bind ht with ht | ⟨b, s'', hexec', ht⟩
  · exact htrail t ht
  · rw [hexec] at hexec'
    cases hexec'
    exact htrail' t ht

theorem state : Keeps d (Analysis.Framed d) state := by
  intro s hs
  refine ⟨⟨s, s, rfl, hs, hs⟩, fun t ht => ⟨d, Nat.le_refl d, ?_⟩⟩
  rwa [List.mem_singleton.mp ht]

theorem update {f : Analysis → Analysis} (h : ∀ s, s.Framed d → (f s).Framed d) :
    Keeps d (fun _ => True) (update f) := by
  intro s hs
  refine ⟨⟨(), f s, rfl, h s hs, trivial⟩, fun t ht => ⟨d, Nat.le_refl d, ?_⟩⟩
  rcases List.mem_cons.mp ht with rfl | ht
  · exact hs
  · rw [List.mem_singleton.mp ht]
    exact h s hs

theorem ofExcept {result : Except ScopeError α} {a : α} (h : result = .ok a) (ha : Q a) :
    Keeps d Q (ofExcept result) := by
  subst h
  exact pure ha

theorem report {error : SemanticError} : Keeps d (fun _ => True) (report error) :=
  update fun _ hs => ⟨hs.scopes, hs.resolved⟩

theorem record {pos : Position} {symbol : Symbol} (h : symbol.OneFramed) :
    Keeps d (fun _ => True) (record pos symbol) := by
  refine update fun s hs => ⟨hs.scopes, fun entry hentry => ?_⟩
  rcases Resolutions.mem_enter hentry with rfl | hentry
  · exact h
  · exact hs.resolved entry hentry

theorem setScopes {scopes : ScopeStack Symbol} (h : scopes.Framed d) :
    Keeps d (fun _ => True) (setScopes scopes) :=
  update fun _ hs => ⟨h, hs.resolved⟩

theorem onScopes {step : ScopeStack Symbol → Resolve (ScopeStack Symbol)}
    (h : ∀ table : ScopeStack Symbol, table.Framed d →
      Keeps d (ScopeStack.Framed d) (step table)) :
    Keeps d (fun _ => True) (onScopes step) :=
  state.bind fun s hs => (h s.scopes hs.scopes).bind fun _ hscopes => setScopes hscopes

/-- Steps in a scope of their own: what they do to it is gone with it. -/
theorem inScope {step : Resolve Unit} (h : Keeps (d + 1) (fun _ => True) step) :
    Keeps d (fun _ => True) (inScope step) := by
  intro s hs
  let inner : Analysis := { s with scopes := s.scopes.push }
  have hpush : inner.Framed (d + 1) :=
    ⟨⟨congrArg (· + 1) hs.scopes.depth, hs.scopes.bound.push⟩, hs.resolved⟩
  obtain ⟨⟨_, s', hexec, hs', -⟩, htrail⟩ := h inner hpush
  obtain ⟨scopes, hpop, hdepth⟩ := ScopeStack.pop_of_depth hs'.scopes.depth
  let last := Resolve.onScopes fun scopes => Resolve.ofExcept scopes.pop
  have hlast : last.exec s' = (.ok (), { s' with scopes }) := exec_close hpop
  have hstates : last.trail s' = [s', { s' with scopes }] := trail_close hpop
  have hclosed : ({ s' with scopes } : Analysis).Framed d :=
    ⟨⟨hdepth, hs'.scopes.bound.pop hpop⟩, hs'.resolved⟩
  have hstep : (step.ensuring last).exec inner = (.ok (), { s' with scopes }) := by
    simp only [exec_ensuring, hexec, exec_bind, hlast, exec_pure]
  refine ⟨⟨(), { s' with scopes }, hstep, hclosed, trivial⟩, fun t ht => ?_⟩
  rcases List.mem_cons.mp ht with rfl | ht
  · exact ⟨d, Nat.le_refl d, hs⟩
  · rcases mem_trail_ensuring ht with ht | ht
    · obtain ⟨k, hk, htk⟩ := htrail t ht
      exact ⟨k, Nat.le_of_succ_le hk, htk⟩
    · rw [hexec, hstates] at ht
      rcases List.mem_cons.mp ht with rfl | ht
      · exact ⟨d + 1, Nat.le_succ d, hs'⟩
      · rw [List.mem_singleton.mp ht]
        exact ⟨d, Nat.le_refl d, hclosed⟩

theorem lookup {name : String} :
    Keeps (d + 1) (fun found => ∀ symbol ∈ found, symbol.OneFramed) (lookup name) := by
  refine state.bind fun s hs => ?_
  obtain ⟨found, hfound⟩ := ScopeStack.lookup_of_depth hs.scopes.depth name
  refine ofExcept hfound fun symbol hsymbol => ?_
  obtain rfl : found = some symbol := hsymbol
  exact hs.scopes.bound.lookup hfound

theorem foundOr {error : SemanticError} {found : Option Symbol}
    (h : ∀ symbol ∈ found, symbol.OneFramed) : Keeps d Symbol.OneFramed (foundOr error found) := by
  cases found with
  | some symbol => exact pure (h symbol rfl)
  | none => exact report.bind fun _ _ => pure (Symbol.oneFramed_of_table_none rfl rfl)

/-- On a table with an open scope a declaration is accepted, or refused because the name is
taken. -/
theorem declareIn {table : ScopeStack Symbol} {k : Nat} {name : Ident} {symbol : Symbol}
    (ht : table.Framed (k + 1)) (hs : symbol.OneFramed) :
    Keeps d (fun table? => ∀ t ∈ table?, t.Framed (k + 1)) (declareIn table name symbol) := by
  rw [Resolve.declareIn]
  rcases ScopeStack.declare_of_depth ht.depth ht.bound hs name.name with
    ⟨table', hd, hdepth, hbound⟩ | hd
  · rw [hd]
    refine pure fun t h => ?_
    obtain rfl : table' = t := Option.some.inj h
    exact ⟨hdepth, hbound⟩
  · rw [hd]
    exact report.bind fun _ _ => pure (by simp)

theorem bindIn {table : ScopeStack Symbol} {k : Nat} {name : Ident} {symbol : Symbol}
    (ht : table.Framed (k + 1)) (hs : symbol.OneFramed) :
    Keeps d (ScopeStack.Framed (k + 1)) (bindIn table name symbol) := by
  apply (declareIn ht hs).bind
  intro table? htable
  cases table? with
  | some table' => exact (record hs).bind fun _ _ => pure (htable table' rfl)
  | none => exact pure ht

theorem forM {f : α → Resolve Unit} (h : ∀ a, Keeps d (fun _ => True) (f a)) (as : List α) :
    Keeps d (fun _ => True) (as.forM f) := by
  induction as with
  | nil => exact pure trivial
  | cons a as ih => exact (h a).bind fun _ _ => ih

theorem foldlM {f : β → α → Resolve β} (h : ∀ b a, R b → Keeps d R (f b a)) (as : List α)
    {b : β} (hb : R b) : Keeps d R (as.foldlM f b) := by
  induction as generalizing b with
  | nil => exact pure hb
  | cons a as ih => exact (h b a hb).bind fun _ hb' => ih hb'

end Keeps

/-! ## Expressions -/

theorem keeps_useName (id : Ident) : Keeps (d + 1) Symbol.OneFramed (useName id) := by
  apply Keeps.lookup.bind
  intro found hfound
  apply (Keeps.foundOr hfound).bind
  intro symbol hsymbol
  exact (Keeps.record hsymbol).bind fun _ _ => .pure hsymbol

theorem keeps_lookupField {base : Symbol} (h : base.OneFramed) (name : String) :
    Keeps d (fun found => ∀ symbol ∈ found, symbol.OneFramed) (lookupField base name) := by
  rw [lookupField]
  cases ht : base.fields? with
  | none => exact .pure fun _ hs => by cases hs
  | some table =>
      have hframed := h.of_table (Symbol.table?_of_fields? ht)
      obtain ⟨found, hl⟩ := ScopeStack.lookup_of_depth hframed.depth name
      refine .ofExcept hl fun symbol hsymbol => ?_
      obtain rfl : found = some symbol := hsymbol
      exact hframed.bound.lookup hl

theorem keeps_useField {base : Symbol} (h : base.OneFramed) (pos : Position) (field : Ident) :
    Keeps d Symbol.OneFramed (useField pos base field) := by
  rw [useField]
  split
  · exact Keeps.foundOr fun _ hs => by cases hs
  · apply (keeps_lookupField h field.name).bind
    intro found hfound
    apply (Keeps.foundOr hfound).bind
    intro symbol hsymbol
    exact (Keeps.record hsymbol).bind fun _ _ => .pure hsymbol

theorem oneFramed_undefined : Symbol.undefined.OneFramed :=
  Symbol.oneFramed_of_table_none rfl rfl

mutual

theorem keeps_expr : ∀ e : Expr, Keeps (d + 1) Symbol.OneFramed (expr e)
  | .int .. | .str .. | .bool .. => .pure oneFramed_undefined
  | .id _ id => keeps_useName id
  | .dot _ base field => (keeps_expr base).bind fun _ h => keeps_useField h base.pos field
  | .assign _ lhs rhs => (keeps_expr rhs).bind fun _ _ => keeps_expr lhs
  | .call _ callee args => (keeps_exprs args).bind fun _ _ => keeps_useName callee
  | .unary _ _ operand => keeps_expr operand
  | .binary _ _ lhs rhs => (keeps_expr rhs).bind fun _ _ => keeps_expr lhs

theorem keeps_exprs : ∀ es : List Expr, Keeps (d + 1) (fun _ => True) (exprs es)
  | [] => .pure trivial
  | e :: es => (keeps_expr e).bind fun _ _ => keeps_exprs es

end

/-! ## Declarations of names -/

theorem keeps_structFields? (name : Ident) :
    Keeps (d + 1) (fun fields? => ∀ fields ∈ fields?, ∀ t ∈ fields, t.Framed 1)
      (structFields? name) := by
  apply Keeps.lookup.bind
  intro found hfound
  split
  · rename_i fields
    have h : (Symbol.structDecl fields).OneFramed := hfound _ rfl
    refine (Keeps.record h).bind fun _ _ => .pure fun fields' hfields t ht => ?_
    cases hfields
    exact h.of_table ht
  · exact Keeps.report.bind fun _ _ => .pure fun _ h => by cases h

theorem keeps_symbol? (role : Role) (type : TypeSpec) :
    Keeps (d + 1) (fun symbol? => ∀ symbol ∈ symbol?, symbol.OneFramed) (symbol? role type) := by
  have hsymbol {fields : Option (ScopeStack Symbol)} (h : ∀ t ∈ fields, t.Framed 1) :
      (role.symbol type fields).OneFramed := by
    cases role <;> cases type <;> exact Symbol.oneFramed_of_table rfl h
  rw [symbol?]
  split
  · rename_i name _
    refine (keeps_structFields? name).bind fun fields? h => .pure fun symbol hs => ?_
    obtain ⟨fields, hfields, rfl⟩ := Option.map_eq_some_iff.mp hs
    exact hsymbol (h fields hfields)
  · refine .pure fun symbol hs => ?_
    obtain rfl := Option.some.inj hs
    exact hsymbol fun _ ht => by cases ht

theorem keeps_varDeclIn {table : ScopeStack Symbol} {k : Nat} (ht : table.Framed (k + 1))
    (decl : VarDecl) :
    Keeps (d + 1) (ScopeStack.Framed (k + 1)) (varDeclIn table decl) := by
  rw [varDeclIn]
  split
  · exact Keeps.report.bind fun _ _ => .pure ht
  · obtain ⟨found, hl⟩ := ScopeStack.lookupLocal_of_depth ht.depth decl.name.name
    refine (Keeps.ofExcept (Q := fun _ => True) hl trivial).bind fun found _ => ?_
    split
    · exact .pure ht
    · refine (keeps_symbol? .variable decl.type).bind fun symbol? hsymbol => ?_
      cases symbol? with
      | some symbol => exact .bindIn ht (hsymbol symbol rfl)
      | none => exact .pure ht

theorem keeps_varDecl (decl : VarDecl) : Keeps (d + 1) (fun _ => True) (varDecl decl) :=
  .onScopes fun _ ht => keeps_varDeclIn ht decl

theorem keeps_formal (decl : VarDecl) : Keeps (d + 1) (fun _ => True) (formal decl) := by
  rw [formal]
  split
  · exact .report
  · refine (keeps_symbol? .formal decl.type).bind fun symbol? hsymbol => ?_
    cases symbol? with
    | some symbol => exact .onScopes fun _ ht => .bindIn ht (hsymbol symbol rfl)
    | none => exact .pure trivial

/-! ## Statements and blocks -/

theorem keeps_discard {x : Resolve α} (h : Keeps d P x) :
    Keeps d (fun _ => True) (discard x) :=
  h.bind fun _ _ => .pure trivial

mutual

theorem keeps_stmt {d : Nat} : ∀ st : Stmt, Keeps (d + 1) (fun _ => True) (stmt st)
  | .act _ e => keeps_discard (keeps_expr e)
  | .ifThen cond body | .loop _ cond body => by
      have hbody : Keeps (d + 1) (fun _ => True) (inScope (block body)) :=
        .inScope (keeps_block body)
      exact (keeps_expr cond).bind fun _ _ => hbody
  | .ifElse cond thenBlock elseBlock => by
      have hthen : Keeps (d + 1) (fun _ => True) (inScope (block thenBlock)) :=
        .inScope (keeps_block thenBlock)
      have helse : Keeps (d + 1) (fun _ => True) (inScope (block elseBlock)) :=
        .inScope (keeps_block elseBlock)
      exact (keeps_expr cond).bind fun _ _ => hthen.bind fun _ _ => helse
  | .ret none => .pure trivial
  | .ret (some e) => keeps_discard (keeps_expr e)

theorem keeps_block {d : Nat} : ∀ b : Block, Keeps (d + 1) (fun _ => True) (block b)
  | .mk decls body => (Keeps.forM keeps_varDecl decls).bind fun _ _ => keeps_stmts body

theorem keeps_stmts {d : Nat} : ∀ ss : List Stmt, Keeps (d + 1) (fun _ => True) (stmts ss)
  | [] => .pure trivial
  | st :: rest => (keeps_stmt st).bind fun _ _ => keeps_stmts rest

end

/-! ## Declarations and programs -/

theorem oneFramed_fnSymbol (decl : FnDecl) : decl.symbol.OneFramed := by
  refine .intro (fun _ h => by cases h) (fun _ h => by cases h) fun formal h => ?_
  obtain ⟨_, -, rfl⟩ := List.mem_map.mp h
  exact Symbol.oneFramed_of_table_none rfl rfl

theorem keeps_fnDecl (decl : FnDecl) : Keeps (d + 1) (fun _ => True) (fnDecl decl) := by
  have hname : Keeps (d + 1) (fun _ => True) (onScopes (bindIn · decl.name decl.symbol)) :=
    .onScopes fun _ ht => .bindIn ht (oneFramed_fnSymbol decl)
  have hinside : Keeps (d + 2) (fun _ => True) (do decl.formals.forM formal; block decl.body) :=
    (Keeps.forM keeps_formal decl.formals).bind fun _ _ => keeps_block decl.body
  exact hname.bind fun _ _ => .inScope hinside

theorem keeps_attachFields (name : Ident) {table : ScopeStack Symbol} (ht : table.Framed 1) :
    Keeps (d + 1) (fun _ => True) (attachFields name table) := by
  have hsymbol : (Symbol.structDecl (some table)).OneFramed :=
    Symbol.oneFramed_of_table rfl fun t h => by cases h; exact ht
  refine Keeps.state.bind fun s hs => ?_
  obtain ⟨found, hl⟩ := ScopeStack.lookupLocal_of_depth hs.scopes.depth name.name
  refine (Keeps.ofExcept (Q := fun _ => True) hl trivial).bind fun found _ => ?_
  split
  · obtain ⟨result, hr, hresult⟩ := ScopeStack.replaceLocal_of_depth hs.scopes.depth
      hs.scopes.bound hsymbol name.name
    refine (Keeps.ofExcept (Q := fun r => r = result) hr rfl).bind fun r hr => ?_
    subst hr
    refine (Keeps.setScopes ?_).bind fun _ _ => .record hsymbol
    cases r with
    | none => exact hs.scopes
    | some scopes => exact ⟨(hresult scopes rfl).1, (hresult scopes rfl).2⟩
  · exact .pure trivial

theorem oneFramed_structDecl_none : (Symbol.structDecl none).OneFramed :=
  Symbol.oneFramed_of_table_none rfl rfl

theorem keeps_structDecl (decl : StructDecl) :
    Keeps (d + 1) (fun _ => True) (structDecl decl) := by
  have hfields : Keeps (d + 1) (ScopeStack.Framed 1) (decl.fields.foldlM varDeclIn .new) :=
    .foldlM (fun _ field ht => keeps_varDeclIn ht field) decl.fields .new
  have hattach : Keeps (d + 1) (fun _ => True)
      (decl.fields.foldlM varDeclIn .new >>= attachFields decl.name) :=
    hfields.bind fun _ ht => keeps_attachFields decl.name ht
  apply Keeps.state.bind
  intro s hs
  apply (Keeps.declareIn hs.scopes oneFramed_structDecl_none).bind
  intro table? h
  cases table? with
  | none => exact .pure trivial
  | some scopes => exact (Keeps.setScopes (h scopes rfl)).bind fun _ _ => hattach

theorem keeps_decl (dec : Decl) : Keeps (d + 1) (fun _ => True) (decl dec) := by
  cases dec with
  | var decl => exact keeps_varDecl decl
  | fn decl => exact keeps_fnDecl decl
  | struct decl => exact keeps_structDecl decl

theorem keeps_program (p : Program) : Keeps (d + 1) (fun _ => True) (program p) :=
  .forM keeps_decl p.decls

end Resolve

/-! ## Histories of calls -/

/-- What an analysis can be asked to do: analyse a program, or an expression. -/
inductive Call where
  | program (p : Program)
  | expr (e : Expr)

namespace Call

/-- The steps that a call takes. -/
def steps : Call → Resolve Unit
  | .program p => Resolve.program p
  | .expr e => discard (Resolve.expr e)

theorem keeps_steps (call : Call) : call.steps.Keeps 1 fun _ => True := by
  cases call with
  | program p => exact Resolve.keeps_program p
  | expr e => exact Resolve.keeps_discard (Resolve.keeps_expr e)

end Call

namespace Analysis

/-- The state that is reached by some calls, one after another, from the first state. -/
def after (calls : List Call) : Analysis :=
  calls.foldl (fun s call => (call.steps.exec s).2) .new

theorem framed_after (calls : List Call) : (after calls).Framed 1 := by
  suffices h : ∀ s : Analysis, s.Framed 1 →
      (calls.foldl (fun s call => (call.steps.exec s).2) s).Framed 1 from h .new .new
  induction calls with
  | nil => exact fun s hs => hs
  | cons call calls ih =>
      intro s hs
      obtain ⟨⟨_, s', hexec, hs', -⟩, -⟩ := call.keeps_steps s hs
      rw [List.foldl_cons, hexec]
      exact ih s' hs'

end Analysis

theorem Program.analyze_ok (p : Program) : ∃ analysis, p.analyze = .ok analysis := by
  obtain ⟨⟨_, s, hexec, -, -⟩, -⟩ := Call.keeps_steps (.program p) .new .new
  have hrun : (Resolve.program p).run .new = .ok ((), s) := Resolve.run_ok_iff.mpr hexec
  exact ⟨s, by rw [analyze, hrun]; rfl⟩

theorem check_ne_scope (source : String) (error : ScopeError) :
    check source ≠ .error (.scope error) := by
  intro h
  cases hp : Program.parse (Tokens.ofString source).lexemes (Tokens.ofString source).eoi with
  | error e =>
      rw [check, hp] at h
      cases h
  | ok p =>
      obtain ⟨analysis, ha⟩ := p.analyze_ok
      rw [check, hp] at h
      change (p.analyze.mapError CheckError.scope).bind _ = _ at h
      rw [ha] at h
      cases h

/-- Whatever an analysis was asked before, its next call comes to its end with one open scope as
there was one before it; on the way at least one scope is open, and all attached field tables
have one frame.  So no check ends with a misuse of the scope stack. -/
theorem scopes_never_misused (calls : List Call) (call : Call) (source : String)
    (error : ScopeError) :
    (Analysis.after calls).scopes.depth = 1 ∧
      (∃ s, call.steps.exec (.after calls) = (.ok (), s) ∧ s.scopes.depth = 1) ∧
      (∀ t ∈ call.steps.trail (.after calls), 1 ≤ t.scopes.depth ∧
        t.scopes.All Symbol.OneFramed ∧ ∀ entry ∈ t.resolutions.entries, entry.2.OneFramed) ∧
      check source ≠ .error (.scope error) := by
  have hs := Analysis.framed_after calls
  obtain ⟨⟨_, s', hexec, hs', -⟩, htrail⟩ := call.keeps_steps _ hs
  refine ⟨hs.scopes.depth, ⟨s', hexec, hs'.scopes.depth⟩, fun t ht => ?_,
    check_ne_scope source error⟩
  obtain ⟨k, hk, htk⟩ := htrail t ht
  exact ⟨htk.scopes.depth ▸ hk, htk.scopes.bound, htk.resolved⟩

end NameCheck
