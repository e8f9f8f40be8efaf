import NameCheck.Proofs.Resolve.Accounting
import NameCheck.Proofs.Resolve.Admissible

/-!
# Rejected declarations leave no trace

A declaration that is rejected can be deleted.  All that goes with it is the report about it, if
there is one, and the meaning of the name of its type: whatever comes after it is found as before.
-/

namespace NameCheck

/-! ## Deleting a declaration -/

/-- A statement with another one of its blocks. -/
inductive Stmt.Replaces (block block' : Block) : Stmt → Stmt → Prop where
  | ifThen {cond : Expr} :
      Replaces block block' (.ifThen cond block) (.ifThen cond block')
  | thenBlock {cond : Expr} {other : Block} :
      Replaces block block' (.ifElse cond block other) (.ifElse cond block' other)
  | elseBlock {cond : Expr} {other : Block} :
      Replaces block block' (.ifElse cond other block) (.ifElse cond other block')
  | loop {kind : LoopKind} {cond : Expr} :
      Replaces block block' (.loop kind cond block) (.loop kind cond block')

/-- A block without one of the declarations in it, or in a block inside it. -/
inductive Block.Deletes (decl : VarDecl) : Block → Block → Prop where
  | here {before after : List VarDecl} {stmts : List Stmt} :
      Deletes decl (.mk (before ++ decl :: after) stmts) (.mk (before ++ after) stmts)
  | inside {decls : List VarDecl} {before after : List Stmt} {stmt stmt' : Stmt}
      {block block' : Block} (h : Deletes decl block block')
      (hstmt : stmt.Replaces block block' stmt') :
      Deletes decl (.mk decls (before ++ stmt :: after)) (.mk decls (before ++ stmt' :: after))

/-- A function without one of the declarations in its body, or a struct without one of its
fields. -/
inductive Decl.Deletes (decl : VarDecl) : Decl → Decl → Prop where
  | ofBody {fn : FnDecl} {body : Block} (h : fn.body.Deletes decl body) :
      Deletes decl (.fn fn) (.fn { fn with body := body })
  | ofFields {name : Ident} {before after : List VarDecl} :
      Deletes decl (.struct ⟨name, before ++ decl :: after⟩) (.struct ⟨name, before ++ after⟩)

/-- A program without one declaration: a variable, local or at the top, a field, or a struct. -/
inductive Program.Deletes : Program → Decl → Program → Prop where
  | var {before after : List Decl} {decl : VarDecl} :
      Deletes ⟨before ++ .var decl :: after⟩ (.var decl) ⟨before ++ after⟩
  | struct {before after : List Decl} {decl : StructDecl} :
      Deletes ⟨before ++ .struct decl :: after⟩ (.struct decl) ⟨before ++ after⟩
  | inside {before after : List Decl} {decl : VarDecl} {d d' : Decl} (h : d.Deletes decl d') :
      Deletes ⟨before ++ d :: after⟩ (.var decl) ⟨before ++ d' :: after⟩

/-! ## What goes with it -/

/-- What is reported about a rejected declaration: that it is `void`, that its name is taken, that
its type is not known, or nothing if it is passed over. -/
inductive Decl.RejectedWith : Decl → List SemanticError → Prop where
  | void {decl : VarDecl} (h : decl.type.isVoid = true) :
      RejectedWith (.var decl) [.nonFunctionVoid decl.name.name decl.name.pos]
  | taken {d : Decl} : RejectedWith d [.multiplyDeclared d.name.name d.name.pos]
  | unknownType {decl : VarDecl} {name : Ident} (h : decl.type = .struct name) :
      RejectedWith (.var decl) [.invalidStructTypeName name.name name.pos]
  | passedOver {decl : VarDecl} : RejectedWith (.var decl) []

/-- The struct that the type of a declared variable names. -/
def Decl.typeName? : Decl → Option Ident
  | .var decl => decl.type.structName?
  | _ => none

/-- What some sites say goes with a rejected declaration: the report about it, and at most the
meaning of the name of its type. -/
structure Decl.Spends (d : Decl) (xs : List Site) : Prop where
  reported : d.RejectedWith (xs.flatMap Site.errors)
  recorded : ∀ entry ∈ xs.flatMap Site.meanings, d.typeName?.map Ident.pos = some entry.1
  typed : ∀ name, d.typeName? = some name → ∃ x ∈ xs, x.ident = name

/-- The sites `ys` are the sites `xs` without those of a rejected declaration. -/
def Decl.Omits (d : Decl) (xs ys : List Site) : Prop :=
  ∃ before own after, xs = before ++ own ++ after ∧ ys = before ++ after ∧ d.Spends own

/-- A declaration is not bound at any of some sites. -/
def Decl.Unbound (d : Decl) (xs : List Site) : Prop :=
  ∀ symbol, .declared d.name (.bound symbol) ∉ xs

namespace Decl

variable {d : Decl} {xs ys : List Site}

theorem Unbound.left (h : d.Unbound (xs ++ ys)) : d.Unbound xs :=
  fun symbol hmem => h symbol (List.mem_append_left _ hmem)

theorem Unbound.right (h : d.Unbound (xs ++ ys)) : d.Unbound ys :=
  fun symbol hmem => h symbol (List.mem_append_right _ hmem)

theorem Omits.prepend (h : d.Omits xs ys) (zs : List Site) : d.Omits (zs ++ xs) (zs ++ ys) := by
  obtain ⟨before, own, after, rfl, rfl, hown⟩ := h
  exact ⟨zs ++ before, own, after, by simp, by simp, hown⟩

theorem Omits.append (h : d.Omits xs ys) (zs : List Site) : d.Omits (xs ++ zs) (ys ++ zs) := by
  obtain ⟨before, own, after, rfl, rfl, hown⟩ := h
  exact ⟨before, own, after ++ zs, by simp, by simp, hown⟩

end Decl

/-! ## Variables and fields -/

section Variables

variable {env : Env} {frame : Frame Symbol} {decl : VarDecl} {type : TypeSpec}
  {envOf : Frame Symbol → Env} {name : Ident} {verdict : Verdict}

theorem TypeSpec.pos_of_mem_meanings {entry : Position × Symbol}
    (h : entry ∈ (type.sites env).flatMap Site.meanings) :
    type.structName?.map Ident.pos = some entry.1 := by
  cases type with
  | struct name =>
      rw [sites, List.flatMap_singleton] at h
      rcases (Site.typeName name (env.findStruct name.name)).meanings_cases with hm | ⟨_, hm⟩
      · rw [hm] at h
        cases h
      · rw [hm] at h
        obtain rfl := List.mem_singleton.mp h
        rfl
  | _ => cases h

theorem TypeSpec.exists_site (h : type.structName? = some name) :
    ∃ x ∈ type.sites env, x.ident = name := by
  cases type with
  | struct struct =>
      cases h
      exact ⟨_, List.mem_cons_self, rfl⟩
  | _ => cases h

theorem TypeSpec.exists_passedOver (h : type.structName? = some name) :
    ∃ x ∈ type.passedOver, x.ident = name := by
  cases type with
  | struct struct =>
      cases h
      exact ⟨_, List.mem_cons_self, rfl⟩
  | _ => cases h

/-- The sites of a declaration whose type is looked up, if its name is not bound. -/
theorem VarDecl.spends_of_lookedUp
    (hreported : (Decl.var decl).RejectedWith
      ((decl.type.sites env).flatMap Site.errors ++ (Site.declared decl.name verdict).errors))
    (hverdict : (Site.declared decl.name verdict).meanings = []) :
    (Decl.var decl).Spends (decl.type.sites env ++ [.declared decl.name verdict]) where
  reported := by
    rw [List.flatMap_append, List.flatMap_singleton]
    exact hreported
  recorded := fun entry hentry => by
    rw [List.flatMap_append, List.flatMap_singleton, hverdict, List.append_nil] at hentry
    exact TypeSpec.pos_of_mem_meanings hentry
  typed := fun name hname => by
    obtain ⟨x, hx, hident⟩ := TypeSpec.exists_site hname
    exact ⟨x, List.mem_append_left _ hx, hident⟩

/-- The sites of a declaration that is passed over. -/
theorem VarDecl.spends_of_passedOver {x : Site} (herrors : x.errors = [])
    (hmeanings : x.meanings = []) : (Decl.var decl).Spends (decl.type.passedOver ++ [x]) where
  reported := by
    rw [List.flatMap_append, (Resolve.passedOver_silent decl.type).1, List.flatMap_singleton,
      herrors]
    exact .passedOver
  recorded := fun entry hentry => by
    rw [List.flatMap_append, (Resolve.passedOver_silent decl.type).2, List.flatMap_singleton,
      hmeanings] at hentry
    cases hentry
  typed := fun name hname => by
    obtain ⟨y, hy, hident⟩ := TypeSpec.exists_passedOver hname
    exact ⟨y, List.mem_append_left _ hy, hident⟩

/-- A declaration that is not bound changes nothing. -/
theorem VarDecl.spends_sites
    (h : (Decl.var decl).Unbound (decl.sites .variable env frame)) :
    (Decl.var decl).Spends (decl.sites .variable env frame) ∧
      decl.extend .variable env frame = frame := by
  have hfate := decl.fate env frame
  generalize decl.sites .variable env frame = xs, decl.extend .variable env frame = frame'
    at h hfate
  cases hfate with
  | void hv =>
      refine ⟨⟨.void hv, fun _ h => absurd h List.not_mem_nil, fun name hname => ?_⟩, rfl⟩
      cases htype : decl.type with
      | struct struct =>
          rw [htype] at hv
          cases hv
      | _ =>
          rw [Decl.typeName?, htype] at hname
          cases hname
  | hidden => exact ⟨spends_of_passedOver rfl rfl, rfl⟩
  | @unknownType name htype hf =>
      refine ⟨⟨.unknownType htype, fun _ h => absurd h List.not_mem_nil, fun other hother => ?_⟩,
        rfl⟩
      rw [Decl.typeName?, htype] at hother
      exact ⟨_, List.mem_cons_self, Option.some.inj hother⟩
  | taken hv hs =>
      refine ⟨spends_of_lookedUp ?_ rfl, rfl⟩
      rw [TypeSpec.errors_sites hs]
      exact .taken (d := .var decl)
  | @bound symbol =>
      exact absurd (List.mem_append_right _ List.mem_cons_self) (h symbol)

/-- Among declarations of one scope, one that is not bound can be deleted. -/
theorem VarDecl.omits_sitesAll {before after : List VarDecl}
    (h : (Decl.var decl).Unbound (sitesAll .variable envOf frame (before ++ decl :: after))) :
    (Decl.var decl).Omits (sitesAll .variable envOf frame (before ++ decl :: after))
        (sitesAll .variable envOf frame (before ++ after)) ∧
      extendAll .variable envOf frame (before ++ decl :: after) =
        extendAll .variable envOf frame (before ++ after) := by
  rw [sitesAll_append, sitesAll] at h
  obtain ⟨hspends, hextend⟩ := spends_sites h.right.left
  rw [sitesAll_append, sitesAll_append, extendAll_append, extendAll_append, sitesAll, extendAll,
    hextend]
  exact ⟨⟨_, _, _, (List.append_assoc _ _ _).symm, rfl, hspends⟩, rfl⟩

end Variables

/-! ## Blocks and declarations -/

section Blocks

variable {env : Env} {decl : VarDecl}

theorem Stmt.sitesAll_append (stmts stmts' : List Stmt) :
    sitesAll env (stmts ++ stmts') = sitesAll env stmts ++ sitesAll env stmts' := by
  induction stmts with
  | nil => rfl
  | cons stmt stmts ih => rw [List.cons_append, sitesAll, ih, sitesAll, List.append_assoc]

/-- In two statements that differ in one block, the sites differ in those of this block. -/
theorem Stmt.Replaces.exists_sites {stmt stmt' : Stmt} {block block' : Block}
    (h : stmt.Replaces block block' stmt') (env : Env) :
    ∃ before after, stmt.sites env = before ++ block.sites env.enter ++ after ∧
      stmt'.sites env = before ++ block'.sites env.enter ++ after := by
  cases h with
  | @ifThen cond | @loop kind cond =>
      exact ⟨cond.sites env, [], (List.append_nil _).symm, (List.append_nil _).symm⟩
  | @thenBlock cond other =>
      exact ⟨cond.sites env, other.sites env.enter, (List.append_assoc _ _ _).symm,
        (List.append_assoc _ _ _).symm⟩
  | @elseBlock cond other =>
      refine ⟨cond.sites env ++ other.sites env.enter, [], ?_, ?_⟩ <;> simp [sites]

theorem Block.Deletes.omits {block block' : Block} (h : block.Deletes decl block')
    (hunbound : (Decl.var decl).Unbound (block.sites env)) :
    (Decl.var decl).Omits (block.sites env) (block'.sites env) := by
  induction h generalizing env with
  | @here before after stmts =>
      rw [sites] at hunbound
      obtain ⟨homits, hextend⟩ := VarDecl.omits_sitesAll hunbound.left
      rw [sites, sites, Env.declareAll, Env.declareAll, hextend]
      exact homits.append _
  | @inside decls before after stmt stmt' block block' h hstmt ih =>
      obtain ⟨before', after', hsites, hsites'⟩ :=
        hstmt.exists_sites (env.declareAll .variable decls)
      rw [sites, Stmt.sitesAll_append, Stmt.sitesAll, hsites] at hunbound
      have hinner := ih hunbound.right.right.left.left.right
      rw [sites, sites, Stmt.sitesAll_append, Stmt.sitesAll_append, Stmt.sitesAll, Stmt.sitesAll,
        hsites, hsites']
      exact ((((hinner.prepend before').append after').append _).prepend _).prepend _

/-- The fields of a struct whose name is taken are passed over one by one. -/
theorem StructDecl.omits_passedOver {before after : List VarDecl} :
    let passedOver := fun field : VarDecl => field.type.passedOver ++ [Site.passedOver field.name]
    (Decl.var decl).Omits ((before ++ decl :: after).flatMap passedOver)
      ((before ++ after).flatMap passedOver) := by
  intro passedOver
  refine ⟨before.flatMap passedOver, passedOver decl, after.flatMap passedOver, ?_, ?_, ?_⟩
  · simp only [List.flatMap_append, List.flatMap_cons, List.append_assoc, passedOver]
  · exact List.flatMap_append
  · exact VarDecl.spends_of_passedOver rfl rfl

theorem Decl.Deletes.omits {d d' : Decl} (h : d.Deletes decl d')
    (hunbound : (Decl.var decl).Unbound (d.sites env)) :
    (Decl.var decl).Omits (d.sites env) (d'.sites env) ∧ d'.env env = d.env env := by
  cases h with
  | @ofBody fn body h =>
      rw [Decl.sites, FnDecl.sites, ← List.singleton_append] at hunbound
      have hbody := h.omits hunbound.right.right.right
      exact ⟨((hbody.prepend _).prepend [_]).prepend _, rfl⟩
  | @ofFields name before after =>
      rw [Decl.sites, StructDecl.sites] at hunbound
      rw [Decl.sites, Decl.sites, StructDecl.sites, StructDecl.sites, Decl.env, Decl.env,
        StructDecl.env, StructDecl.env]
      cases hl : env.inner.lookup name.name with
      | none =>
          rw [hl] at hunbound
          obtain ⟨homits, htable⟩ := VarDecl.omits_sitesAll hunbound.left
          have htables : StructDecl.table env ⟨name, before ++ decl :: after⟩ =
              StructDecl.table env ⟨name, before ++ after⟩ := congrArg ScopeStack.ofFrame htable
          simp only [htables]
          exact ⟨homits.append _, rfl⟩
      | some symbol => exact ⟨StructDecl.omits_passedOver.prepend [_], rfl⟩

/-- A variable at the top that is not bound changes nothing. -/
theorem Decl.spends_sites_var (h : (Decl.var decl).Unbound ((Decl.var decl).sites env)) :
    (Decl.var decl).Spends ((Decl.var decl).sites env) ∧ (Decl.var decl).env env = env := by
  obtain ⟨hspends, hextend⟩ := VarDecl.spends_sites h
  exact ⟨hspends, congrArg env.within hextend⟩

/-- A struct that is not bound changes nothing, and its fields are passed over. -/
theorem Decl.spends_sites_struct {struct : StructDecl}
    (h : (Decl.struct struct).Unbound ((Decl.struct struct).sites env)) :
    (Decl.struct struct).Spends ((Decl.struct struct).sites env) ∧
      (Decl.struct struct).env env = env := by
  rw [sites, StructDecl.sites] at h
  rw [sites, StructDecl.sites, Decl.env, StructDecl.env]
  cases hl : env.inner.lookup struct.name.name with
  | none =>
      rw [hl] at h
      exact absurd (List.mem_append_right _ List.mem_cons_self) (h _)
  | some symbol =>
      obtain ⟨herrors, hmeanings⟩ := Resolve.passedOver_fields_silent struct.fields
      refine ⟨⟨?_, ?_, fun name hname => by cases hname⟩, rfl⟩
      · rw [List.flatMap_cons, herrors]
        exact .taken (d := .struct struct)
      · intro entry hentry
        rw [List.flatMap_cons, hmeanings] at hentry
        cases hentry

end Blocks

/-! ## Programs -/

namespace Program

variable {p p' : Program} {d : Decl}

theorem omits_of_spends {before after : List Decl}
    (hspends : d.Spends (d.sites (env ⟨before⟩))) (henv : d.env (env ⟨before⟩) = env ⟨before⟩) :
    d.Omits (sites ⟨before ++ d :: after⟩) (sites ⟨before ++ after⟩) ∧
      env ⟨before ++ after⟩ = env ⟨before ++ d :: after⟩ := by
  rw [sites, sites, Decl.sitesAll_append, Decl.sitesAll_append, Decl.sitesAll, env_append,
    env_append, List.foldl_cons, henv]
  change d.Omits (_ ++ (d.sites (env ⟨before⟩) ++ Decl.sitesAll (d.env (env ⟨before⟩)) after)) _ ∧ _
  rw [henv]
  exact ⟨⟨_, _, _, (List.append_assoc _ _ _).symm, rfl, hspends⟩, rfl⟩

theorem Deletes.omits (h : p.Deletes d p') (hunbound : d.Unbound p.sites) :
    d.Omits p.sites p'.sites ∧ p'.env = p.env := by
  cases h with
  | @var before after decl =>
      rw [sites, Decl.sitesAll_append, Decl.sitesAll] at hunbound
      obtain ⟨hspends, henv⟩ := Decl.spends_sites_var hunbound.right.left
      exact omits_of_spends hspends henv
  | @struct before after decl =>
      rw [sites, Decl.sitesAll_append, Decl.sitesAll] at hunbound
      obtain ⟨hspends, henv⟩ := Decl.spends_sites_struct hunbound.right.left
      exact omits_of_spends hspends henv
  | @inside before after decl d d' h =>
      rw [sites, Decl.sitesAll_append, Decl.sitesAll] at hunbound
      obtain ⟨homits, henv⟩ := h.omits hunbound.right.left
      rw [sites, sites, Decl.sitesAll_append, Decl.sitesAll_append, Decl.sitesAll, Decl.sitesAll,
        henv, env, env, List.foldl_append, List.foldl_append, List.foldl_cons, List.foldl_cons,
        henv]
      exact ⟨(homits.append _).prepend _, rfl⟩

end Program

/-! ## Meanings -/

/-- What is recorded next keeps what two tables agree on. -/
theorem Resolutions.get?_foldl_record_congr {entries : List (Position × Symbol)}
    {table table' : Resolutions} {pos : Position} (h : table.get? pos = table'.get? pos) :
    (entries.foldl (fun table entry => table.record entry.1 entry.2) table).get? pos =
      (entries.foldl (fun table entry => table.record entry.1 entry.2) table').get? pos := by
  rw [get?_foldl_record, get?_foldl_record, h]

/-- Where a rejected declaration does not name its type, what is recorded does not depend on it. -/
theorem Decl.Spends.get?_eq {d : Decl} {before own after : List Site} {env : Env} {pos : Position}
    (h : d.Spends own) (hpos : d.typeName?.map Ident.pos ≠ some pos) :
    (Analysis.new.add (before ++ after) env).resolutions.get? pos =
      (Analysis.new.add (before ++ own ++ after) env).resolutions.get? pos := by
  rw [Analysis.add_resolutions, Analysis.add_resolutions, List.flatMap_append, List.flatMap_append,
    List.flatMap_append, List.foldl_append, List.foldl_append, List.foldl_append]
  refine Resolutions.get?_foldl_record_congr ?_
  refine (Resolutions.get?_foldl_record_of_ne fun entry hentry heq => hpos ?_).symm
  rw [h.recorded entry hentry, heq]

/-- Where a rejected declaration names its type, nothing else is recorded. -/
theorem Decl.Spends.get?_eq_none {d : Decl} {before own after : List Site} {env : Env}
    {pos : Position} (h : d.Spends own) (hpos : d.typeName?.map Ident.pos = some pos)
    (hdistinct : (before ++ own ++ after).Pairwise fun a b => a.ident.pos ≠ b.ident.pos) :
    (Analysis.new.add (before ++ after) env).resolutions.get? pos = none := by
  obtain ⟨name, hname, rfl⟩ := Option.map_eq_some_iff.mp hpos
  obtain ⟨x, hx, rfl⟩ := h.typed name hname
  obtain ⟨hleft, -, hafter⟩ := List.pairwise_append.mp hdistinct
  obtain ⟨-, -, hbefore⟩ := List.pairwise_append.mp hleft
  have hne : ∀ y ∈ before ++ after, y.ident.pos ≠ x.ident.pos := by
    intro y hy
    rcases List.mem_append.mp hy with hy | hy
    · exact hbefore y hy x hx
    · exact (hafter x (List.mem_append_right _ hx) y hy).symm
  rw [Analysis.add_resolutions,
    Resolutions.get?_foldl_record_of_ne (Analysis.ne_of_mem_meanings hne)]
  rfl

/-- Rejected declarations leave no trace.  If nothing is bound at the name of a variable, field
or struct, deleting the declaration changes neither the scopes nor what is reported about anything
else, nor any meaning, except that the name of its type is gone. -/
theorem Program.rejected_leaves_no_trace {p p' : Program} {d : Decl} {a : Analysis}
    (hdistinct : (p.occurrences.map Occurrence.ident).Pairwise fun x y => x.pos ≠ y.pos)
    (hdeletes : p.Deletes d p') (ha : p.analyze = .ok a)
    (hrejected : a.resolutions.get? d.name.pos = none) :
    ∃ a', p'.analyze = .ok a' ∧ a'.scopes = a.scopes ∧
      (∃ before own after, a.errors = before ++ own ++ after ∧ a'.errors = before ++ after ∧
        d.RejectedWith own) ∧
      ∀ pos, a'.resolutions.get? pos =
        if d.typeName?.map Ident.pos = some pos then none else a.resolutions.get? pos := by
  rw [analyze_eq_lexical] at ha
  cases ha
  have hsites := pairwise_sites_of_distinct hdistinct
  have hunbound : d.Unbound p.sites := by
    intro symbol hmem
    have hnotes : p.lexical.notes d.name = (Site.declared d.name (.bound symbol)).notes :=
      Analysis.notes_add hsites hmem
    have hbound : p.lexical.resolutions.get? d.name.pos = some symbol := congrArg Prod.fst hnotes
    rw [hrejected] at hbound
    cases hbound
  obtain ⟨⟨before, own, after, hp, hp', hspends⟩, henv⟩ := hdeletes.omits hunbound
  refine ⟨p'.lexical, p'.analyze_eq_lexical, congrArg Env.stack henv, ?_, fun pos => ?_⟩
  · refine ⟨before.flatMap Site.errors, own.flatMap Site.errors, after.flatMap Site.errors,
      ?_, ?_, hspends.reported⟩
    · rw [lexical, Analysis.add_errors, hp, List.flatMap_append, List.flatMap_append]
    · rw [lexical, Analysis.add_errors, hp', List.flatMap_append]
  · rw [hp] at hsites
    rw [lexical, lexical, hp, hp', henv]
    split
    · rename_i hpos
      exact hspends.get?_eq_none hpos hsites
    · rename_i hpos
      exact hspends.get?_eq hpos

/-- A variable of a type that is not known, in the body of a loop. -/
theorem Program.rejected_leaves_no_trace_in_loop :
    let decl : VarDecl := ⟨.struct ⟨"P", ⟨1, 26⟩⟩, ⟨"q", ⟨1, 28⟩⟩⟩
    let program (decls : List VarDecl) : Program := ⟨[.fn ⟨.int, ⟨"f", ⟨1, 5⟩⟩,
      [⟨.int, ⟨"x", ⟨1, 11⟩⟩⟩], .mk [] [.loop .whileLoop (.id ⟨1, 22⟩ ⟨"x", ⟨1, 22⟩⟩)
        (.mk decls [])]⟩]⟩
    ∃ a a', (program [decl]).analyze = .ok a ∧ (program []).analyze = .ok a' ∧
      a'.scopes = a.scopes ∧ a.errors = [.invalidStructTypeName "P" ⟨1, 26⟩] ∧ a'.errors = [] ∧
      ∀ pos, a'.resolutions.get? pos =
        if some ⟨1, 26⟩ = some pos then none else a.resolutions.get? pos := by
  intro decl program
  have hdistinct : ((program [decl]).occurrences.map Occurrence.ident).Pairwise
      fun x y => x.pos ≠ y.pos := by decide
  have hbody : (Block.mk [] [.loop .whileLoop (.id ⟨1, 22⟩ ⟨"x", ⟨1, 22⟩⟩) (.mk [decl] [])]).Deletes
      decl (.mk [] [.loop .whileLoop (.id ⟨1, 22⟩ ⟨"x", ⟨1, 22⟩⟩) (.mk [] [])]) :=
    @Block.Deletes.inside decl [] [] [] _ _ _ _ (@Block.Deletes.here decl [] [] []) .loop
  have hdeletes : (program [decl]).Deletes (.var decl) (program []) :=
    @Program.Deletes.inside [] [] decl _ _ (.ofBody hbody)
  obtain ⟨a', ha', hscopes, -, hget⟩ :=
    rejected_leaves_no_trace hdistinct hdeletes (program [decl]).analyze_eq_lexical rfl
  have hlexical : a' = (program []).lexical :=
    Except.ok.inj (ha'.symm.trans (program []).analyze_eq_lexical)
  refine ⟨_, a', (program [decl]).analyze_eq_lexical, ha', hscopes, rfl, ?_, hget⟩
  rw [hlexical]
  rfl

end NameCheck
