import NameCheck.Proofs.Resolve.Refinement

/-!
# What is visible

A name means what the innermost scope that declares it says, and in one scope the first
declaration that was accepted counts.  In the body of a function a variable that is named like a
formal is passed over.
-/

namespace NameCheck

/-- A name means what the innermost scope that declares it says. -/
theorem findIn_eq_some_iff {frames : List (Frame Symbol)} {name : String} {symbol : Symbol} :
    findIn frames name = some symbol ↔
      ∃ inside frame outside, frames = inside ++ frame :: outside ∧
        (∀ f ∈ inside, f.lookup name = none) ∧ frame.lookup name = some symbol := by
  rw [findIn, List.findSome?_eq_some_iff]
  constructor
  · rintro ⟨inside, frame, outside, hframes, hl, hinside⟩
    exact ⟨inside, frame, outside, hframes, hinside, hl⟩
  · rintro ⟨inside, frame, outside, hframes, hinside, hl⟩
    exact ⟨inside, frame, outside, hframes, hl, hinside⟩

namespace VarDecl

variable {role : Role} {env : Env} {frame : Frame Symbol} {decl : VarDecl} {symbol : Symbol}
  {name : String} {envOf : Frame Symbol → Env} {decls : List VarDecl}

theorem verdict_eq_bound_iff :
    decl.verdict role env frame = .bound symbol ↔
      decl.type.isVoid = false ∧ ¬(role = .variable ∧ decl.isHidden frame = true) ∧
        decl.type.symbolIn role env = some symbol ∧ frame.lookup decl.name.name = none := by
  rw [verdict, admission]
  cases hv : decl.type.isVoid with
  | true => simp
  | false =>
      by_cases hh : role = .variable ∧ decl.isHidden frame = true
      · simp [hh]
      · cases hs : decl.type.symbolIn role env with
        | none => simp [hh]
        | some other =>
            cases hl : frame.lookup decl.name.name <;> simp [hh, hl, Verdict.ofSymbol]

theorem verdict_eq_hidden_iff :
    decl.verdict role env frame = .hidden ↔
      decl.type.isVoid = false ∧ role = .variable ∧ decl.isHidden frame = true := by
  rw [verdict, admission]
  cases hv : decl.type.isVoid with
  | true => simp
  | false =>
      by_cases hh : role = .variable ∧ decl.isHidden frame = true
      · simp [hh]
      · cases decl.type.symbolIn role env with
        | none => simp [hh]
        | some symbol =>
            cases hl : frame.lookup decl.name.name <;> simp [hh, hl, Verdict.ofSymbol]

/-- A declaration binds its name if it is accepted, and changes nothing else. -/
theorem lookup_extend :
    (decl.extend role env frame).lookup name = some symbol ↔
      frame.lookup name = some symbol ∨
        decl.name.name = name ∧ decl.verdict role env frame = .bound symbol := by
  rw [extend]
  cases h : decl.verdict role env frame with
  | bound other =>
      have hfree := (verdict_eq_bound_iff.mp h).2.2.2
      rw [Verdict.extend, Frame.lookup_cons]
      by_cases hn : name = decl.name.name
      · subst hn
        simp [hfree]
      · have hn' : ¬decl.name.name = name := fun heq => hn heq.symm
        simp [hn, hn']
  | _ => simp [Verdict.extend]

theorem extendAll_append (decls decls' : List VarDecl) :
    extendAll role envOf frame (decls ++ decls') =
      extendAll role envOf (extendAll role envOf frame decls) decls' := by
  induction decls generalizing frame with
  | nil => rfl
  | cons decl decls ih => exact ih

theorem sitesAll_append (decls decls' : List VarDecl) :
    sitesAll role envOf frame (decls ++ decls') = sitesAll role envOf frame decls ++
      sitesAll role envOf (extendAll role envOf frame decls) decls' := by
  induction decls generalizing frame with
  | nil => rfl
  | cons decl decls ih =>
      rw [List.cons_append, sitesAll, ih, sitesAll, List.append_assoc]
      rfl

/-- A scope binds a name as its first accepted declaration does. -/
theorem lookup_extendAll :
    (extendAll role envOf frame decls).lookup name = some symbol ↔
      frame.lookup name = some symbol ∨
        ∃ before decl after, decls = before ++ decl :: after ∧ decl.name.name = name ∧
          decl.verdict role (envOf (extendAll role envOf frame before))
            (extendAll role envOf frame before) = .bound symbol := by
  induction decls generalizing frame with
  | nil => simp [extendAll]
  | cons decl decls ih =>
      rw [extendAll, ih, lookup_extend, or_assoc]
      refine or_congr_right ?_
      constructor
      · rintro (⟨hn, hv⟩ | ⟨before, d, after, rfl, hn, hv⟩)
        · exact ⟨[], decl, decls, rfl, hn, hv⟩
        · exact ⟨decl :: before, d, after, rfl, hn, hv⟩
      · rintro ⟨before, d, after, hdecls, hn, hv⟩
        cases before with
        | nil =>
            cases hdecls
            exact Or.inl ⟨hn, hv⟩
        | cons first before =>
            cases hdecls
            exact Or.inr ⟨before, d, after, rfl, hn, hv⟩

/-- A name that a scope binds keeps its meaning while the scope grows. -/
theorem lookup_extendAll_of_lookup (h : frame.lookup name = some symbol) :
    (extendAll role envOf frame decls).lookup name = some symbol :=
  lookup_extendAll.mpr (Or.inl h)

theorem symbolIn_formal {type : TypeSpec} (h : type.symbolIn .formal env = some symbol) :
    ∃ fields, symbol = .param type.ty fields := by
  cases type with
  | struct struct =>
      obtain ⟨fields, -, rfl⟩ := Option.map_eq_some_iff.mp h
      exact ⟨fields, rfl⟩
  | _ =>
      cases h
      exact ⟨none, rfl⟩

theorem symbolIn_eq_none_iff {type : TypeSpec} :
    type.symbolIn role env = none ↔
      ∃ name, type = .struct name ∧ env.findStruct name.name = none := by
  cases type with
  | struct name =>
      constructor
      · intro h
        exact ⟨name, rfl, Option.map_eq_none_iff.mp h⟩
      · rintro ⟨_, ⟨⟩, h⟩
        exact Option.map_eq_none_iff.mpr h
  | _ => simp [TypeSpec.symbolIn, TypeSpec.structName?]

theorem symbolIn_variable {type : TypeSpec} (h : type.symbolIn .variable env = some symbol)
    (ty : Ty) (fields : Option (ScopeStack Symbol)) : symbol ≠ .param ty fields := by
  cases type with
  | struct struct =>
      obtain ⟨table, -, rfl⟩ := Option.map_eq_some_iff.mp h
      simp [Role.symbol]
  | _ =>
      cases h
      simp [Role.symbol]

/-- All that can become of a variable or field: the sites of its declaration, and the scope after
it. -/
inductive Fate (env : Env) (frame : Frame Symbol) (decl : VarDecl) :
    List Site → Frame Symbol → Prop where
  | void (hv : decl.type.isVoid = true) : Fate env frame decl [.declared decl.name .void] frame
  | hidden (hh : decl.isHidden frame = true) :
      Fate env frame decl (decl.type.passedOver ++ [.declared decl.name .hidden]) frame
  | unknownType {name : Ident} (ht : decl.type = .struct name)
      (hf : env.findStruct name.name = none) :
      Fate env frame decl [.typeName name none, .declared decl.name .unknownType] frame
  | taken {symbol other : Symbol} (hv : decl.type.isVoid = false)
      (hs : decl.type.symbolIn .variable env = some symbol)
      (hl : frame.lookup decl.name.name = some other) :
      Fate env frame decl (decl.type.sites env ++ [.declared decl.name .taken]) frame
  | bound {symbol : Symbol} (hv : decl.type.isVoid = false)
      (hs : decl.type.symbolIn .variable env = some symbol)
      (hl : frame.lookup decl.name.name = none) :
      Fate env frame decl (decl.type.sites env ++ [.declared decl.name (.bound symbol)])
        ⟨(decl.name.name, symbol) :: frame.entries⟩

theorem fate (env : Env) (frame : Frame Symbol) (decl : VarDecl) :
    decl.Fate env frame (decl.sites .variable env frame) (decl.extend .variable env frame) := by
  cases hv : decl.type.isVoid with
  | true =>
      rw [Resolve.sites_of_isVoid hv, Resolve.extend_of_isVoid hv]
      exact .void hv
  | false =>
      cases hh : decl.isHidden frame with
      | true =>
          rw [sites, extend, verdict_eq_hidden_iff.mpr ⟨hv, rfl, hh⟩]
          exact .hidden hh
      | false =>
          have hverdict : decl.verdict .variable env frame =
              decl.admission .variable env frame := by
            rw [verdict, if_neg (by simp [hv]), if_neg (by simp [hh])]
          rw [Resolve.sites_of_admission hverdict, extend, hverdict, admission]
          cases hs : decl.type.symbolIn .variable env with
          | none =>
              obtain ⟨name, ht, hf⟩ := symbolIn_eq_none_iff.mp hs
              rw [ht, TypeSpec.sites, hf]
              exact .unknownType ht hf
          | some symbol =>
              simp only [Verdict.ofSymbol]
              cases hl : frame.lookup decl.name.name with
              | none => exact .bound hv hs hl
              | some other => exact .taken hv hs hl

/-- Formals bind formals only. -/
theorem lookup_extendAll_formal
    (h : (extendAll .formal envOf .empty decls).lookup name = some symbol) :
    ∃ type fields, symbol = .param type fields := by
  rcases lookup_extendAll.mp h with h | ⟨before, formal, after, -, -, hv⟩
  · cases h
  · obtain ⟨fields, rfl⟩ := symbolIn_formal (verdict_eq_bound_iff.mp hv).2.2.1
    exact ⟨formal.type.ty, fields, rfl⟩

end VarDecl

/-- A variable of a body that is named like an accepted formal is passed over: it is neither bound
nor reported. -/
theorem FnDecl.verdict_of_formal {env : Env} {fn : FnDecl} {before : List VarDecl}
    {decl : VarDecl} {symbol : Symbol}
    (hl : (fn.inside env).inner.lookup decl.name.name = some symbol)
    (hv : decl.type.isVoid = false) :
    let scope := (fn.inside env).declareAll .variable before
    decl.verdict .variable scope scope.inner = .hidden := by
  intro scope
  obtain ⟨type, fields, rfl⟩ := VarDecl.lookup_extendAll_formal hl
  have hscope : scope.inner.lookup decl.name.name = some (.param type fields) :=
    VarDecl.lookup_extendAll_of_lookup hl
  rw [VarDecl.verdict, if_neg (by simp [hv]),
    if_pos ⟨rfl, VarDecl.isHidden_iff.mpr ⟨type, fields, hscope⟩⟩]

theorem VarDecl.silent_of_hidden {env : Env} {frame : Frame Symbol} {decl : VarDecl}
    (h : decl.verdict .variable env frame = .hidden) :
    decl.extend .variable env frame = frame ∧
      (decl.sites .variable env frame).flatMap Site.errors = [] ∧
      (decl.sites .variable env frame).flatMap Site.meanings = [] := by
  obtain ⟨herr, hmean⟩ := Resolve.passedOver_silent decl.type
  rw [extend, sites, h]
  refine ⟨rfl, ?_, ?_⟩
  · rw [List.flatMap_append, herr]
    rfl
  · rw [List.flatMap_append, hmean]
    rfl

/-- The analysis of a program finds what lexical scoping finds: the same misuses in the same
order, the same meanings and the same global scope.  There a name means what the innermost scope
that declares it says, a scope binds a name as its first accepted declaration does, and a variable
of a body that is named like an accepted formal is passed over. -/
theorem Program.analyze_lexically (p : Program) :
    p.analyze = .ok p.lexical ∧
      (∀ (env : Env) (name : String) (symbol : Symbol), env.find name = some symbol ↔
        ∃ inside frame outside, env.frames = inside ++ frame :: outside ∧
          (∀ f ∈ inside, f.lookup name = none) ∧ frame.lookup name = some symbol) ∧
      (∀ (role : Role) (env : Env) (decls : List VarDecl) (name : String) (symbol : Symbol),
        (env.declareAll role decls).inner.lookup name = some symbol ↔
          env.inner.lookup name = some symbol ∨
            ∃ before decl after, decls = before ++ decl :: after ∧ decl.name.name = name ∧
              decl.verdict role (env.declareAll role before) (env.declareAll role before).inner =
                .bound symbol) ∧
      ∀ (env : Env) (fn : FnDecl) (before : List VarDecl) (decl : VarDecl) (after : List VarDecl)
        (symbol : Symbol), fn.body.decls = before ++ decl :: after →
        (fn.inside env).inner.lookup decl.name.name = some symbol → decl.type.isVoid = false →
        let scope := (fn.inside env).declareAll .variable before
        decl.extend .variable scope scope.inner = scope.inner ∧
          (decl.sites .variable scope scope.inner).flatMap Site.errors = [] ∧
          (decl.sites .variable scope scope.inner).flatMap Site.meanings = [] := by
  refine ⟨p.analyze_eq_lexical, fun env name symbol => findIn_eq_some_iff, ?_, ?_⟩
  · intro role env decls name symbol
    exact VarDecl.lookup_extendAll
  · intro env fn before decl after symbol _ hl hv
    exact VarDecl.silent_of_hidden (FnDecl.verdict_of_formal hl hv)

/-- A function with a formal `a` declares a variable `x` and one more `a` in its body, and returns
`a`.  The second `a` is passed over, since the formal hides it, and the value returned is the
formal's. -/
theorem Program.analyze_lexically_of_hidden_variable :
    let x : VarDecl := ⟨.int, ⟨"x", ⟨1, 21⟩⟩⟩
    let decl : VarDecl := ⟨.bool, ⟨"a", ⟨1, 29⟩⟩⟩
    let fn : FnDecl := ⟨.void, ⟨"f", ⟨1, 6⟩⟩, [⟨.int, ⟨"a", ⟨1, 12⟩⟩⟩],
      .mk [x, decl] [.ret (some (.id ⟨1, 39⟩ ⟨"a", ⟨1, 39⟩⟩))]⟩
    let p : Program := ⟨[.fn fn]⟩
    let scope := (fn.inside .top).declareAll .variable [x]
    p.analyze = .ok p.lexical ∧ p.lexical.errors = [] ∧
      p.lexical.resolutions.get? ⟨1, 39⟩ = some (.param .int none) ∧
      p.lexical.resolutions.get? ⟨1, 29⟩ = none ∧
      scope.inner.lookup "x" = some (.var .int none) ∧
      decl.extend .variable scope scope.inner = scope.inner ∧
      (decl.sites .variable scope scope.inner).flatMap Site.errors = [] ∧
      (decl.sites .variable scope scope.inner).flatMap Site.meanings = [] := by
  intro x decl fn p scope
  obtain ⟨hanalyze, -, -, hhidden⟩ := analyze_lexically p
  exact ⟨hanalyze, rfl, rfl, rfl, rfl,
    hhidden .top fn [x] decl [] (.param .int none) rfl rfl rfl⟩

end NameCheck
