import NameCheck.Proofs.Resolve.Lexical
import NameCheck.Proofs.Resolve.Safety

/-!
# The analysis resolves names lexically

The analysis keeps one stack of scopes and changes it as it goes.  From a stack that holds the
scopes of an environment it finds what lexical scoping finds there, and leaves the scopes of the
environment that lexical scoping hands on.
-/

namespace NameCheck

namespace Analysis

variable {s : Analysis} {env env' : Env} {xs ys : List Site}

theorem add_nil (h : s.scopes = env.stack) : s.add [] env = s := by
  obtain ⟨scopes, errors, resolutions⟩ := s
  obtain rfl : scopes = env.stack := h
  simp [add]

@[simp]
theorem add_add : (s.add xs env).add ys env' = s.add (xs ++ ys) env' := by
  simp [add]

end Analysis

namespace Resolve

variable {α β : Type} {env env₁ env₂ : Env} {a : α} {b : β} {xs ys : List Site}
  {x : Resolve α} {k : α → Resolve β}

/-- From the scopes of `env`, the steps end with `a`, visit some sites and leave the scopes of
`env'`. -/
def Visits (x : Resolve α) (env : Env) (xs : List Site) (env' : Env) (a : α) : Prop :=
  ∀ s : Analysis, s.scopes = env.stack → s.Framed env.frames.length →
    x.exec s = (.ok a, s.add xs env')

namespace Visits

theorem intro (h : ∀ errors resolutions, x.exec ⟨env.stack, errors, resolutions⟩ =
    (.ok a, (Analysis.mk env.stack errors resolutions).add xs env₁)) :
    Visits x env xs env₁ a := by
  rintro ⟨scopes, errors, resolutions⟩ hs _
  obtain rfl : scopes = env.stack := hs
  exact h errors resolutions

theorem pure : Visits (pure a) env [] env a := by
  intro s hs _
  rw [exec_pure, Analysis.add_nil hs]

theorem bind {P : α → Prop} (hx : Visits x env xs env₁ a) (hk : Keeps env.frames.length P x)
    (h : P a → Visits (k a) env₁ ys env₂ b) : Visits (x >>= k) env (xs ++ ys) env₂ b := by
  intro s hs hf
  have hexec := hx s hs hf
  obtain ⟨⟨a', s', hexec', hs', ha⟩, -⟩ := hk s hf
  rw [hexec] at hexec'
  cases hexec'
  have hdepth : env₁.frames.length = env.frames.length := hs'.scopes.depth
  have hrest := h ha (s.add xs env₁) rfl (hdepth ▸ hs')
  rw [exec_bind_of_ok hexec, hrest, Analysis.add_add]

theorem state {k : Analysis → Resolve α}
    (h : ∀ s : Analysis, s.scopes = env.stack → s.Framed env.frames.length →
      Visits (k s) env xs env₁ a) : Visits (state >>= k) env xs env₁ a := by
  intro s hs hf
  rw [exec_bind_of_ok (exec_state s)]
  exact h s hs hf s hs hf

/-- Steps in a scope of their own leave nothing but what they found. -/
theorem inScope {step : Resolve Unit} (h : Visits step env.enter xs env₁ ())
    (houter : env₁.outer = env.frames) : Visits (inScope step) env xs env () := by
  intro s hs hf
  let inner : Analysis := { s with scopes := s.scopes.push }
  have hinner : inner.scopes = env.enter.stack := by
    change s.scopes.push = env.enter.stack
    rw [hs]
    rfl
  have hframed : inner.Framed env.enter.frames.length :=
    ⟨⟨congrArg (· + 1) hf.scopes.depth, hf.scopes.bound.push⟩, hf.resolved⟩
  have hpop : env₁.stack.pop = .ok env.stack := by
    change Except.ok (ScopeStack.mk env₁.outer) = .ok env.stack
    rw [houter]
    rfl
  have hstep := h inner hinner hframed
  have hclose := exec_close (s := inner.add xs env₁) hpop
  change (step.ensuring (Resolve.onScopes fun scopes => ofExcept scopes.pop)).exec inner = _
  simp only [exec_ensuring, hstep, exec_bind, hclose, exec_pure]
  rfl

end Visits

/-! ## Lookups -/

theorem exec_lookup {s : Analysis} (hs : s.scopes = env.stack) (name : String) :
    (lookup name).exec s = (.ok (env.find name), s) := by
  simp only [lookup, exec_bind, exec_state, exec_ofExcept, hs]
  rfl

theorem visits_useName (id : Ident) :
    Visits (useName id) env [.use id (env.find id.name)] env
      ((env.find id.name).getD .undefined) := by
  apply Visits.intro
  intro errors resolutions
  have hl : (lookup id.name).exec ⟨env.stack, errors, resolutions⟩ = _ := exec_lookup rfl id.name
  rw [useName, exec_bind_of_ok hl]
  cases env.find id.name with
  | none => simp [exec_bind, Analysis.add, Site.errors, Site.meanings]
  | some symbol => simp [exec_bind, Analysis.add, Site.errors, Site.meanings]

theorem exec_lookupField {base : Symbol} (h : base.OneFramed) (name : String) (s : Analysis) :
    (lookupField base name).exec s = (.ok (base.member name), s) := by
  rw [lookupField, Symbol.member]
  cases ht : base.fields? with
  | none => rfl
  | some table =>
      obtain ⟨frames⟩ := table
      have hdepth := (h.of_table (Symbol.table?_of_fields? ht)).depth
      cases frames with
      | nil => cases hdepth
      | cons frame outer => exact exec_ofExcept _ s

theorem visits_useField {base : Symbol} (h : base.OneFramed) (pos : Position) (field : Ident) :
    Visits (useField pos base field) env [.member pos base field] env
      (match base.structName? with
        | none => .undefined
        | some _ => (base.member field.name).getD .undefined) := by
  apply Visits.intro
  intro errors resolutions
  cases hname : base.structName? with
  | none =>
      simp [useField, hname, Analysis.add, Site.errors, Site.meanings]
  | some struct =>
      cases hm : base.member field.name with
      | none =>
          simp [useField, hname, hm, exec_bind, exec_lookupField h, Analysis.add, Site.errors,
            Site.meanings]
      | some symbol =>
          simp [useField, hname, hm, exec_bind, exec_lookupField h, Analysis.add, Site.errors,
            Site.meanings]

/-! ## Expressions -/

mutual

theorem visits_expr : ∀ e : Expr, Visits (expr e) env (e.sites env) env (e.meaning env)
  | .int .. | .str .. | .bool .. => .pure
  | .id _ id => visits_useName id
  | .dot _ base field =>
    (visits_expr base).bind (keeps_expr base) fun h => visits_useField h base.pos field
  | .assign _ lhs rhs => (visits_expr rhs).bind (keeps_expr rhs) fun _ => visits_expr lhs
  | .call _ callee args =>
    (visits_exprs args).bind (keeps_exprs args) fun _ => visits_useName callee
  | .unary _ _ operand => visits_expr operand
  | .binary _ _ lhs rhs => (visits_expr rhs).bind (keeps_expr rhs) fun _ => visits_expr lhs

theorem visits_exprs : ∀ es : List Expr, Visits (exprs es) env (Expr.sitesAll env es) env ()
  | [] => .pure
  | e :: es => (visits_expr e).bind (keeps_expr e) fun _ => visits_exprs es

end

/-! ## Declarations of names -/

theorem visits_structFields? (name : Ident) :
    Visits (structFields? name) env [.typeName name (env.findStruct name.name)] env
      (env.findStruct name.name) := by
  apply Visits.intro
  intro errors resolutions
  have hl : (lookup name.name).exec ⟨env.stack, errors, resolutions⟩ = _ :=
    exec_lookup rfl name.name
  rw [structFields?, exec_bind_of_ok hl, Env.findStruct]
  cases env.find name.name with
  | none => simp [exec_bind, Analysis.add, Site.errors, Site.meanings]
  | some symbol =>
      cases symbol <;> simp [exec_bind, Analysis.add, Site.errors, Site.meanings]

theorem visits_symbol? (role : Role) (type : TypeSpec) :
    Visits (symbol? role type) env (type.sites env) env (type.symbolIn role env) := by
  cases type with
  | struct name => exact (visits_structFields? name).bind (keeps_structFields? name) fun _ => .pure
  | _ => exact .pure

section Tables

variable {frame : Frame Symbol} {outer : List (Frame Symbol)} {name : Ident} {symbol : Symbol}

theorem declareIn_of_free (h : frame.lookup name.name = none) :
    declareIn ⟨frame :: outer⟩ name symbol =
      pure (some ⟨⟨(name.name, symbol) :: frame.entries⟩ :: outer⟩) := by
  simp [declareIn, ScopeStack.declare, ScopeStack.add, Frame.declare?, h]

theorem declareIn_of_taken {other : Symbol} (h : frame.lookup name.name = some other) :
    declareIn ⟨frame :: outer⟩ name symbol =
      report (.multiplyDeclared name.name name.pos) >>= fun _ => pure none := by
  simp [declareIn, ScopeStack.declare, ScopeStack.add, Frame.declare?, h]

end Tables

theorem visits_bindIn (frame : Frame Symbol) (outer : List (Frame Symbol)) (name : Ident)
    (symbol : Symbol) :
    Visits (bindIn ⟨frame :: outer⟩ name symbol) env
      [.declared name (.ofSymbol frame name.name symbol)] env
      ⟨(Verdict.ofSymbol frame name.name symbol).extend frame name.name :: outer⟩ := by
  apply Visits.intro
  intro errors resolutions
  rw [bindIn, Verdict.ofSymbol]
  cases h : frame.lookup name.name with
  | none =>
      simp [declareIn_of_free h, exec_bind, Verdict.extend, Analysis.add, Site.errors,
        Site.meanings]
  | some other =>
      simp [declareIn_of_taken h, exec_bind, Verdict.extend, Analysis.add, Site.errors,
        Site.meanings]

/-- Sites at which nothing is found need no steps. -/
theorem visits_silent (herr : xs.flatMap Site.errors = []) (hmean : xs.flatMap Site.meanings = []) :
    Visits (pure a) env xs env a := by
  apply Visits.intro
  intro errors resolutions
  simp [Analysis.add, herr, hmean]

theorem visits_report {error : SemanticError} {site : Site} (he : site.errors = [error])
    (hm : site.meanings = []) : Visits (report error) env [site] env () := by
  apply Visits.intro
  intro errors resolutions
  simp [Analysis.add, he, hm]

/-- Steps on the innermost scope put it in place of the one that was there. -/
theorem visits_onScopes {step : ScopeStack Symbol → Resolve (ScopeStack Symbol)}
    {frame : Frame Symbol} (h : Visits (step env.stack) env xs env ⟨frame :: env.outer⟩) :
    Visits (onScopes step) env xs (env.within frame) () := by
  intro s hs hf
  have hstep := h s hs hf
  simp only [onScopes, exec_bind, exec_state, hs, hstep, exec_setScopes]
  rfl

section Declarations

variable {frame : Frame Symbol} {outer : List (Frame Symbol)} {decl : VarDecl} {role : Role}

/-- What both kinds of declaration do when there is nothing against them: the type is looked up,
and the name is bound. -/
theorem visits_admission {k : Option Symbol → Resolve β}
    (hsome : ∀ symbol, decl.type.symbolIn role env = some symbol →
      Visits (k (some symbol)) env
        [.declared decl.name (.ofSymbol frame decl.name.name symbol)] env₂ b)
    (hnone : decl.type.symbolIn role env = none →
      Visits (k none) env [.declared decl.name .unknownType] env₂ b) :
    Visits (symbol? role decl.type >>= k) env
      (decl.type.sites env ++ [.declared decl.name (decl.admission role env frame)]) env₂ b := by
  refine (visits_symbol? role decl.type).bind (keeps_symbol? role decl.type) fun _ => ?_
  rw [VarDecl.admission]
  cases h : decl.type.symbolIn role env with
  | some symbol => exact hsome symbol h
  | none => exact hnone h

theorem verdict_of_isVoid (h : decl.type.isVoid = true) :
    decl.verdict role env frame = .void := by
  rw [VarDecl.verdict, if_pos h]

theorem sites_of_isVoid (h : decl.type.isVoid = true) :
    decl.sites role env frame = [.declared decl.name .void] := by
  have htype : decl.type.sites env = [] := by
    cases ht : decl.type with
    | void => rfl
    | _ =>
        rw [ht] at h
        cases h
  rw [VarDecl.sites, verdict_of_isVoid h, htype]
  rfl

theorem extend_of_isVoid (h : decl.type.isVoid = true) : decl.extend role env frame = frame := by
  rw [VarDecl.extend, verdict_of_isVoid h]
  rfl

theorem sites_of_admission (h : decl.verdict role env frame = decl.admission role env frame) :
    decl.sites role env frame =
      decl.type.sites env ++ [.declared decl.name (decl.admission role env frame)] := by
  rw [VarDecl.sites, h, VarDecl.admission]
  cases decl.type.symbolIn role env with
  | none => rfl
  | some symbol =>
      simp only [Verdict.ofSymbol]
      cases frame.lookup decl.name.name <;> rfl

theorem extend_of_known {symbol : Symbol}
    (h : decl.verdict role env frame = decl.admission role env frame)
    (hs : decl.type.symbolIn role env = some symbol) :
    decl.extend role env frame =
      (Verdict.ofSymbol frame decl.name.name symbol).extend frame decl.name.name := by
  rw [VarDecl.extend, h, VarDecl.admission, hs]

theorem extend_of_unknown (h : decl.verdict role env frame = decl.admission role env frame)
    (hs : decl.type.symbolIn role env = none) : decl.extend role env frame = frame := by
  rw [VarDecl.extend, h, VarDecl.admission, hs]
  rfl

theorem passedOver_silent (type : TypeSpec) :
    type.passedOver.flatMap Site.errors = [] ∧ type.passedOver.flatMap Site.meanings = [] := by
  cases type <;> exact ⟨rfl, rfl⟩

theorem ofExcept_lookupLocal_bind (name : String) (k : Option Symbol → Resolve α) :
    (ofExcept (ScopeStack.lookupLocal ⟨frame :: outer⟩ name) >>= k) = k (frame.lookup name) :=
  rfl

theorem visits_varDeclIn :
    Visits (varDeclIn ⟨frame :: outer⟩ decl) env (decl.sites .variable env frame) env
      ⟨decl.extend .variable env frame :: outer⟩ := by
  rw [varDeclIn]
  by_cases hv : decl.type.isVoid = true
  · rw [if_pos hv, sites_of_isVoid hv, extend_of_isVoid hv]
    exact (visits_report rfl rfl).bind .report fun _ => .pure
  · rw [if_neg hv, ofExcept_lookupLocal_bind]
    split
    · rename_i type fields hl
      have hverdict : decl.verdict .variable env frame = .hidden := by
        rw [VarDecl.verdict, if_neg hv, if_pos ⟨rfl, VarDecl.isHidden_iff.mpr ⟨type, fields, hl⟩⟩]
      rw [VarDecl.sites, VarDecl.extend, hverdict]
      obtain ⟨herr, hmean⟩ := passedOver_silent decl.type
      exact visits_silent (by simp [herr, Site.errors]) (by simp [hmean, Site.meanings])
    · rename_i hl
      have hverdict : decl.verdict .variable env frame = decl.admission .variable env frame := by
        rw [VarDecl.verdict, if_neg hv, if_neg]
        rintro ⟨-, hh⟩
        obtain ⟨type, fields, hl'⟩ := VarDecl.isHidden_iff.mp hh
        exact hl type fields hl'
      rw [sites_of_admission hverdict]
      refine visits_admission (fun symbol hs => ?_) fun hs => ?_
      · rw [extend_of_known hverdict hs]
        exact visits_bindIn frame outer decl.name symbol
      · rw [extend_of_unknown hverdict hs]
        exact visits_silent rfl rfl

theorem visits_varDecl (env : Env) (decl : VarDecl) :
    Visits (varDecl decl) env (decl.sites .variable env env.inner)
      (env.within (decl.extend .variable env env.inner)) () :=
  visits_onScopes visits_varDeclIn

theorem visits_formal (env : Env) (decl : VarDecl) :
    Visits (formal decl) env (decl.sites .formal env env.inner)
      (env.within (decl.extend .formal env env.inner)) () := by
  rw [formal]
  by_cases hv : decl.type.isVoid = true
  · rw [if_pos hv, sites_of_isVoid hv, extend_of_isVoid hv]
    exact visits_report rfl rfl
  · have hverdict : decl.verdict .formal env env.inner = decl.admission .formal env env.inner := by
      rw [VarDecl.verdict, if_neg hv, if_neg]
      rintro ⟨hrole, -⟩
      cases hrole
    rw [if_neg hv, sites_of_admission hverdict]
    refine visits_admission (fun symbol hs => ?_) fun hs => ?_
    · rw [extend_of_known hverdict hs]
      exact visits_onScopes (visits_bindIn env.inner env.outer decl.name symbol)
    · rw [extend_of_unknown hverdict hs]
      exact visits_silent rfl rfl

/-- Declarations in the innermost scope, one after another. -/
theorem visits_forM {f : VarDecl → Resolve Unit}
    (hk : ∀ {d : Nat} decl, Keeps (d + 1) (fun _ => True) (f decl))
    (h : ∀ env decl, Visits (f decl) env (decl.sites role env env.inner)
      (env.within (decl.extend role env env.inner)) ())
    (env : Env) (decls : List VarDecl) :
    Visits (decls.forM f) env (VarDecl.sitesAll role env.within env.inner decls)
      (env.declareAll role decls) () := by
  induction decls generalizing env with
  | nil => exact .pure
  | cons decl decls ih =>
      exact (h env decl).bind (hk decl) fun _ =>
        ih (env.within (decl.extend role env env.inner))

/-- Fields in a table, one after another. -/
theorem visits_fields (frame : Frame Symbol) (hf : (ScopeStack.ofFrame frame).Framed 1)
    (fields : List VarDecl) :
    Visits (fields.foldlM varDeclIn (.ofFrame frame)) env
      (VarDecl.sitesAll .variable (fun _ => env) frame fields) env
      (.ofFrame (VarDecl.extendAll .variable (fun _ => env) frame fields)) := by
  induction fields generalizing frame with
  | nil => exact .pure
  | cons field fields ih =>
      exact visits_varDeclIn.bind (keeps_varDeclIn hf field) fun hf' => ih _ hf'

end Declarations

/-! ## Statements and blocks -/

theorem visits_discard {P : α → Prop} (hx : Visits x env xs env₁ a)
    (hk : Keeps env.frames.length P x) : Visits (discard x) env xs env₁ () := by
  rw [← List.append_nil xs]
  exact hx.bind hk fun _ => .pure

mutual

theorem visits_stmt : ∀ (env : Env) (st : Stmt), Visits (stmt st) env (st.sites env) env ()
  | _, .act _ e => visits_discard (visits_expr e) (keeps_expr e)
  | env, .ifThen cond body | env, .loop _ cond body => by
      have hbody : Visits (inScope (block body)) env (body.sites env.enter) env () :=
        (visits_block env.enter body).inScope rfl
      exact (visits_expr cond).bind (keeps_expr cond) fun _ => hbody
  | env, .ifElse cond thenBlock elseBlock => by
      have hthen : Visits (inScope (block thenBlock)) env (thenBlock.sites env.enter) env () :=
        (visits_block env.enter thenBlock).inScope rfl
      have helse : Visits (inScope (block elseBlock)) env (elseBlock.sites env.enter) env () :=
        (visits_block env.enter elseBlock).inScope rfl
      have hkeeps : Keeps env.frames.length (fun _ => True) (inScope (block thenBlock)) :=
        .inScope (keeps_block thenBlock)
      exact (visits_expr cond).bind (keeps_expr cond) fun _ => hthen.bind hkeeps fun _ => helse
  | _, .ret none => .pure
  | _, .ret (some e) => visits_discard (visits_expr e) (keeps_expr e)

theorem visits_block : ∀ (env : Env) (b : Block),
    Visits (block b) env (b.sites env) (env.declareAll .variable b.decls) ()
  | env, .mk decls body =>
    (visits_forM keeps_varDecl visits_varDecl env decls).bind
      (.forM keeps_varDecl decls) fun _ => visits_stmts (env.declareAll .variable decls) body

theorem visits_stmts : ∀ (env : Env) (ss : List Stmt),
    Visits (stmts ss) env (Stmt.sitesAll env ss) env ()
  | _, [] => .pure
  | env, st :: rest =>
    (visits_stmt env st).bind (keeps_stmt st) fun _ => visits_stmts env rest

end

/-! ## Declarations and programs -/

theorem visits_skip {zs : List Site} (h : Visits x env xs env₁ a)
    (herr : zs.flatMap Site.errors = []) (hmean : zs.flatMap Site.meanings = []) :
    Visits x env (zs ++ xs) env₁ a := by
  intro s hs hf
  rw [h s hs hf]
  simp [Analysis.add, herr, hmean]

theorem visits_fnDecl (env : Env) (decl : FnDecl) :
    Visits (fnDecl decl) env (decl.sites env) (decl.env env) () := by
  obtain ⟨herr, hmean⟩ := passedOver_silent decl.returns
  have hname : Visits (onScopes (bindIn · decl.name decl.symbol)) env
      [.declared decl.name (decl.verdict env)] (decl.env env) () :=
    visits_onScopes (visits_bindIn env.inner env.outer decl.name decl.symbol)
  have hkeeps : Keeps env.frames.length (fun _ => True)
      (onScopes (bindIn · decl.name decl.symbol)) :=
    .onScopes fun _ ht => .bindIn ht (oneFramed_fnSymbol decl)
  have hformals := visits_forM keeps_formal visits_formal (decl.env env).enter decl.formals
  have hinside : Visits (decl.formals.forM formal >>= fun _ => block decl.body)
      (decl.env env).enter _ _ () := hformals.bind (.forM keeps_formal decl.formals) fun _ =>
    visits_block (decl.inside env) decl.body
  exact visits_skip (hname.bind hkeeps fun _ => hinside.inScope rfl) herr hmean

section Structs

variable (env : Env) (decl : StructDecl)

theorem visits_setScopes (env' : Env) : Visits (setScopes env'.stack) env [] env' () := by
  intro s _ _
  simp [Analysis.add]

theorem visits_attachFields (table : ScopeStack Symbol) :
    Visits (attachFields decl.name table) (decl.withFields env none)
      [.declared decl.name (.bound (.structDecl table))] (decl.withFields env table) () := by
  intro s hs _
  have hlookup : (decl.withFields env none).stack.lookupLocal decl.name.name =
      .ok (some (.structDecl none)) := by
    refine congrArg Except.ok (?_ : (decl.withFields env none).inner.lookup _ = _)
    rw [StructDecl.withFields, Env.within, Frame.lookup_cons, if_pos rfl]
  have hreplace : (decl.withFields env none).stack.replaceLocal decl.name.name
      (.structDecl table) = .ok (some (decl.withFields env table).stack) := by
    change Except.ok (Option.map _ (Frame.replace? _ _ _)) = _
    simp only [StructDecl.withFields, Frame.replace?, Frame.replaceIn?, Env.within, if_true]
    rfl
  simp only [attachFields, exec_bind, exec_state, hs, hlookup, exec_ofExcept, hreplace,
    exec_setScopes, exec_record]
  simp [Analysis.add, Site.errors, Site.meanings]

/-- The fields of a struct whose name is taken are passed over. -/
theorem passedOver_fields_silent (fields : List VarDecl) :
    let sites := fields.flatMap fun field =>
      field.type.passedOver ++ [Site.passedOver field.name]
    sites.flatMap Site.errors = [] ∧ sites.flatMap Site.meanings = [] := by
  induction fields with
  | nil => exact ⟨rfl, rfl⟩
  | cons field fields ih =>
      obtain ⟨herr, hmean⟩ := passedOver_silent field.type
      simp only [List.flatMap_cons, List.flatMap_append, herr, hmean, ih.1, ih.2]
      exact ⟨rfl, rfl⟩

theorem framed_withoutFields {d : Nat} (h : env.stack.Framed d) :
    (decl.withFields env none).stack.Framed d := by
  refine ⟨h.depth, fun frame hframe => ?_⟩
  rcases List.mem_cons.mp hframe with rfl | hframe
  · have hinner : env.inner.All Symbol.OneFramed := h.bound env.inner List.mem_cons_self
    exact hinner.cons oneFramed_structDecl_none
  · exact h.bound frame (List.mem_cons_of_mem _ hframe)

theorem visits_structDecl : Visits (structDecl decl) env (decl.sites env) (decl.env env) () := by
  rw [structDecl, StructDecl.sites, StructDecl.env]
  apply Visits.state
  intro s hs hf
  rw [hs]
  cases hl : env.inner.lookup decl.name.name with
  | some other =>
      have hdeclare : declareIn env.stack decl.name (.structDecl none) =
          report (.multiplyDeclared decl.name.name decl.name.pos) >>= fun _ => pure none :=
        declareIn_of_taken hl
      have hreport : Visits (report (.multiplyDeclared decl.name.name decl.name.pos)) env
          [.declared decl.name .taken] env () := visits_report rfl rfl
      obtain ⟨herr, hmean⟩ := passedOver_fields_silent decl.fields
      rw [hdeclare]
      exact hreport.bind .report fun _ => visits_silent herr hmean
  | none =>
      have hdeclare : declareIn env.stack decl.name (.structDecl none) =
          pure (some (decl.withFields env none).stack) := declareIn_of_free hl
      have hstack : env.stack.Framed env.frames.length := hs ▸ hf.scopes
      have hframed := framed_withoutFields env decl hstack
      have hfields : Visits (decl.fields.foldlM varDeclIn .new) (decl.withFields env none) _
          (decl.withFields env none) (decl.table env) := visits_fields .empty .new decl.fields
      have hkeeps : Keeps env.frames.length (ScopeStack.Framed 1)
          (decl.fields.foldlM varDeclIn .new) :=
        .foldlM (fun _ field ht => keeps_varDeclIn ht field) decl.fields .new
      have hattach := visits_attachFields env decl (decl.table env)
      rw [hdeclare]
      exact (visits_setScopes env (decl.withFields env none)).bind (.setScopes hframed) fun _ =>
        hfields.bind hkeeps fun _ => hattach

end Structs

theorem visits_decl (env : Env) (dec : Decl) :
    Visits (decl dec) env (dec.sites env) (dec.env env) () := by
  cases dec with
  | var decl => exact visits_varDecl env decl
  | fn decl => exact visits_fnDecl env decl
  | struct decl => exact visits_structDecl env decl

theorem visits_decls (env : Env) (decls : List Decl) :
    Visits (decls.forM decl) env (Decl.sitesAll env decls) (decls.foldl Decl.env env) () := by
  induction decls generalizing env with
  | nil => exact .pure
  | cons dec decls ih => exact (visits_decl env dec).bind (keeps_decl dec) fun _ => ih (dec.env env)

end Resolve

theorem Program.analyze_eq_lexical (p : Program) : p.analyze = .ok p.lexical := by
  have hexec : (Resolve.program p).exec .new = (.ok (), p.lexical) :=
    Resolve.visits_decls .top p.decls .new rfl .new
  have hrun : (Resolve.program p).run .new = .ok ((), p.lexical) :=
    Resolve.run_ok_iff.mpr hexec
  rw [analyze, hrun]
  rfl

end NameCheck
