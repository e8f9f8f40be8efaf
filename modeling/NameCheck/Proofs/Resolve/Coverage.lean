import NameCheck.Proofs.Resolve.Known
import NameCheck.Proofs.Resolve.Occurrences

/-!
# Every occurrence is settled at a site

Lexical scoping visits each occurrence of a name once, if not from the left to the right.  The
site tells what becomes of the occurrence, and other sites of the program give the grounds for it.
-/

namespace NameCheck

/-- Whether declarations of an owner are passed over where some sites were found: a variable is if
it is named like an accepted formal of its scope, and a field is if its struct was rejected. -/
def Owner.PassesOver (xs : List Site) (decl : VarDecl) : Owner → Prop
  | .variable formals =>
    ∃ formal ∈ formals, formal.name.name = decl.name.name ∧
      ∃ symbol, .declared formal.name (.bound symbol) ∈ xs
  | .formal => False
  | .field struct => .declared struct.name .taken ∈ xs

/-- Whether some sites give the grounds for a verdict on a declaration. -/
inductive Verdict.Fits (xs : List Site) (owner : Owner) (decl : VarDecl) : Verdict → Prop where
  | bound {role : Role} {env : Env} {symbol : Symbol} (henv : env.Known)
      (h : decl.type.symbolIn role env = some symbol) : Fits xs owner decl (.bound symbol)
  | void : Fits xs owner decl .void
  | taken : Fits xs owner decl .taken
  | hidden (h : owner.PassesOver xs decl) : Fits xs owner decl .hidden
  | unknownType {name : Ident} (ht : decl.type = .struct name) (h : .typeName name none ∈ xs) :
      Fits xs owner decl .unknownType

/-- `Settles xs o x`: the site `x` tells what becomes of the occurrence `o`, and the sites `xs`
give the grounds. -/
inductive Settles (xs : List Site) : Occurrence → Site → Prop where
  | use {id : Ident} {found : Option Symbol} (h : ∀ symbol ∈ found, symbol.Known) :
      Settles xs (.use id) (.use id found)
  | member {env : Env} {base : Expr} {field : Ident} (hb : base.sites env ⊆ xs)
      (h : ∀ symbol ∈ (base.meaning env).member field.name, symbol.Known) :
      Settles xs (.member base field) (.member base.pos (base.meaning env) field)
  | typeName {owner : Owner} {decl : VarDecl} {name : Ident}
      {found : Option (Option (ScopeStack Symbol))} :
      Settles xs (.typeName owner decl name) (.typeName name found)
  | typePassedOver {owner : Owner} {decl : VarDecl} {name : Ident}
      (h : owner.PassesOver xs decl) :
      Settles xs (.typeName owner decl name) (.passedOver name)
  | varName {owner : Owner} {decl : VarDecl} {verdict : Verdict}
      (h : verdict.Fits xs owner decl) :
      Settles xs (.varName owner decl) (.declared decl.name verdict)
  | varPassedOver {owner : Owner} {decl : VarDecl} (h : owner.PassesOver xs decl) :
      Settles xs (.varName owner decl) (.passedOver decl.name)
  | topBound {name : Ident} {symbol : Symbol} (h : symbol.isUndefined = false) :
      Settles xs (.topName name) (.declared name (.bound symbol))
  | topTaken {name : Ident} : Settles xs (.topName name) (.declared name .taken)
  | returnType {name : Ident} : Settles xs (.returnType name) (.passedOver name)

theorem Settles.ident {xs : List Site} {o : Occurrence} {x : Site} (h : Settles xs o x) :
    x.ident = o.ident := by
  cases h <;> rfl

/-- Among the sites `all`, the sites `xs` are those of the occurrences `os`: they are about the
same names, and each occurrence is settled at one of them. -/
def Covers (all : List Site) (os : List Occurrence) (xs : List Site) : Prop :=
  xs ⊆ all → (xs.map Site.ident).Perm (os.map Occurrence.ident) ∧
    ∀ o ∈ os, ∃ x ∈ xs, Settles all o x

namespace Covers

variable {all xs ys : List Site} {os ps : List Occurrence} {o : Occurrence} {x : Site}

theorem nil : Covers all [] [] := by
  intro _
  exact ⟨.nil, fun o ho => by cases ho⟩

theorem of_subset (h : xs ⊆ all → Covers all os xs) : Covers all os xs :=
  fun hsub => h hsub hsub

theorem single (h : x ∈ all → Settles all o x) : Covers all [o] [x] := by
  intro hsub
  have hx : Settles all o x := h (hsub List.mem_cons_self)
  refine ⟨?_, fun o' ho' => ?_⟩
  · rw [List.map_singleton, List.map_singleton, hx.ident]
  · obtain rfl := List.mem_singleton.mp ho'
    exact ⟨x, List.mem_cons_self, hx⟩

/-- What comes first is visited last. -/
theorem swap (hx : Covers all os xs) (hy : Covers all ps ys) :
    Covers all (os ++ ps) (ys ++ xs) := by
  intro hsub
  obtain ⟨hys, hxs⟩ := List.append_subset.mp hsub
  obtain ⟨hpx, hsx⟩ := hx hxs
  obtain ⟨hpy, hsy⟩ := hy hys
  refine ⟨?_, fun o ho => ?_⟩
  · rw [List.map_append, List.map_append]
    exact List.perm_append_comm.trans (hpx.append hpy)
  · rcases List.mem_append.mp ho with ho | ho
    · obtain ⟨x, hx, hs⟩ := hsx o ho
      exact ⟨x, List.mem_append_right _ hx, hs⟩
    · obtain ⟨y, hy, hs⟩ := hsy o ho
      exact ⟨y, List.mem_append_left _ hy, hs⟩

theorem append (hx : Covers all os xs) (hy : Covers all ps ys) :
    Covers all (os ++ ps) (xs ++ ys) := by
  intro hsub
  have hsub' : ys ++ xs ⊆ all := List.append_subset.mpr (List.append_subset.mp hsub).symm
  obtain ⟨hperm, hsettled⟩ := hx.swap hy hsub'
  refine ⟨?_, fun o ho => ?_⟩
  · rw [List.map_append] at hperm ⊢
    exact List.perm_append_comm.trans hperm
  · obtain ⟨z, hz, hs⟩ := hsettled o ho
    exact ⟨z, List.mem_append.mpr (List.mem_append.mp hz).symm, hs⟩

theorem flatMap {α : Type} {f : α → List Occurrence} {g : α → List Site}
    (h : ∀ a, Covers all (f a) (g a)) (as : List α) :
    Covers all (as.flatMap f) (as.flatMap g) := by
  induction as with
  | nil => exact .nil
  | cons a as ih => exact (h a).append ih

end Covers

variable {all : List Site}

/-! ## Expressions -/

section Expressions

variable {env : Env}

theorem covers_use (henv : env.Known) (id : Ident) :
    Covers all [.use id] [.use id (env.find id.name)] := by
  have hknown : ∀ symbol ∈ env.find id.name, symbol.Known := fun _ hs => henv.find hs
  exact .single fun _ => .use hknown

theorem covers_member (henv : env.Known) {base : Expr} (hb : base.sites env ⊆ all)
    (field : Ident) :
    Covers all [.member base field] [.member base.pos (base.meaning env) field] := by
  have hfilled := filled_meaning henv base
  have hknown : ∀ symbol ∈ (base.meaning env).member field.name, symbol.Known :=
    fun _ hs => hfilled.member hs
  exact .single fun _ => .member hb hknown

mutual

theorem covers_expr (henv : env.Known) : ∀ e : Expr, Covers all e.occurrences (e.sites env)
  | .int .. | .str .. | .bool .. => .nil
  | .id _ name => covers_use henv name
  | .dot _ base field => by
      apply Covers.of_subset
      intro hsub
      have hbase : base.sites env ⊆ all := (List.append_subset.mp hsub).1
      exact (covers_expr henv base).append (covers_member henv hbase field)
  | .assign _ lhs rhs | .binary _ _ lhs rhs => (covers_expr henv lhs).swap (covers_expr henv rhs)
  | .call _ callee args => (covers_use henv callee).swap (covers_exprs henv args)
  | .unary _ _ operand => covers_expr henv operand

theorem covers_exprs (henv : env.Known) :
    ∀ es : List Expr, Covers all (Expr.occurrencesAll es) (Expr.sitesAll env es)
  | [] => .nil
  | e :: es => (covers_expr henv e).append (covers_exprs henv es)

end

end Expressions

/-! ## Declarations of names -/

section Declarations

variable {env : Env} {frame : Frame Symbol} {role : Role} {owner : Owner} {decl : VarDecl}
  {envOf : Frame Symbol → Env} {symbol : Symbol}

theorem covers_type (decl : VarDecl) :
    Covers all (decl.type.structName?.toList.map (.typeName owner decl))
      (decl.type.sites env) := by
  cases decl.type with
  | struct name => exact .single fun _ => .typeName
  | _ => exact .nil

theorem covers_passedOver {f : Ident → Occurrence} (type : TypeSpec)
    (h : ∀ name, Settles all (f name) (.passedOver name)) :
    Covers all (type.structName?.toList.map f) type.passedOver := by
  cases type with
  | struct name => exact .single fun _ => h name
  | _ => exact .nil

/-- The grounds for a verdict are where it was found. -/
theorem fits_verdict (henv : env.Known)
    (hhide : role = .variable → decl.isHidden frame = true → owner.PassesOver all decl)
    (hsub : decl.type.sites env ⊆ all) : (decl.verdict role env frame).Fits all owner decl := by
  rw [VarDecl.verdict]
  split
  · exact .void
  split
  · rename_i hh
    exact .hidden (hhide hh.1 hh.2)
  rw [VarDecl.admission]
  cases hs : decl.type.symbolIn role env with
  | none =>
      obtain ⟨name, ht, hfind⟩ := VarDecl.symbolIn_eq_none_iff.mp hs
      have hsite : .typeName name none ∈ decl.type.sites env := by
        rw [ht, TypeSpec.sites, hfind]
        exact List.mem_cons_self
      exact .unknownType ht (hsub hsite)
  | some symbol =>
      simp only [Verdict.ofSymbol]
      cases frame.lookup decl.name.name with
      | none => exact .bound henv hs
      | some other => exact .taken

theorem covers_varDecl (henv : env.Known)
    (hhide : role = .variable → decl.isHidden frame = true → owner.PassesOver all decl) :
    Covers all (decl.occurrences owner) (decl.sites role env frame) := by
  rw [VarDecl.occurrences, VarDecl.sites]
  have hname {verdict : Verdict} (h : verdict.Fits all owner decl) :
      Covers all [.varName owner decl] [.declared decl.name verdict] :=
    .single fun _ => .varName h
  split
  · rename_i hv
    obtain ⟨-, hrole, hh⟩ := VarDecl.verdict_eq_hidden_iff.mp hv
    have hpass : owner.PassesOver all decl := hhide hrole hh
    have htype := covers_passedOver decl.type fun _ => .typePassedOver hpass
    exact htype.append (hname (.hidden hpass))
  · apply Covers.of_subset
    intro hsub
    have htype : decl.type.sites env ⊆ all := (List.append_subset.mp hsub).1
    exact (covers_type decl).append (hname (fits_verdict henv hhide htype))

/-- Whether what a scope hides is passed over. -/
def Owner.Hides (all : List Site) (owner : Owner) (frame : Frame Symbol) : Prop :=
  ∀ decl : VarDecl, decl.isHidden frame = true → owner.PassesOver all decl

theorem Owner.hides_empty : owner.Hides all .empty := by
  intro decl h
  cases h

/-- Only a formal hides anything. -/
theorem Owner.Hides.bind {name : String} (h : owner.Hides all frame)
    (hs : ∀ type fields, symbol ≠ .param type fields) :
    owner.Hides all ⟨(name, symbol) :: frame.entries⟩ := by
  intro decl hdecl
  obtain ⟨type, fields, hl⟩ := VarDecl.isHidden_iff.mp hdecl
  rw [Frame.lookup_cons] at hl
  split at hl
  · exact absurd (Option.some.inj hl) (hs type fields)
  · exact h decl (VarDecl.isHidden_iff.mpr ⟨type, fields, hl⟩)

theorem Owner.Hides.extend (h : owner.Hides all frame) :
    owner.Hides all (decl.extend .variable env frame) := by
  rw [VarDecl.extend]
  cases hv : decl.verdict .variable env frame with
  | bound symbol =>
      exact h.bind (VarDecl.symbolIn_variable (VarDecl.verdict_eq_bound_iff.mp hv).2.2.1)
  | _ => exact h

theorem covers_varDecls (henv : ∀ frame, frame.All Symbol.Known → (envOf frame).Known)
    (hframe : frame.All Symbol.Known) (hhide : role = .variable → owner.Hides all frame)
    (decls : List VarDecl) :
    Covers all (decls.flatMap (VarDecl.occurrences owner))
      (VarDecl.sitesAll role envOf frame decls) := by
  induction decls generalizing frame with
  | nil => exact .nil
  | cons decl decls ih =>
      have hdecl : Covers all (decl.occurrences owner) (decl.sites role (envOf frame) frame) :=
        covers_varDecl (henv frame hframe) fun hrole => hhide hrole decl
      refine hdecl.append (ih (VarDecl.known_extend (henv frame hframe) hframe) ?_)
      rintro rfl
      exact (hhide rfl).extend

theorem declared_mem_sites (h : decl.verdict role env frame = .bound symbol) :
    .declared decl.name (.bound symbol) ∈ decl.sites role env frame := by
  rw [VarDecl.sites, h]
  exact List.mem_append_right _ List.mem_cons_self

theorem declared_mem_sitesAll {before after : List VarDecl}
    (h : decl.verdict role (envOf (VarDecl.extendAll role envOf frame before))
      (VarDecl.extendAll role envOf frame before) = .bound symbol) :
    .declared decl.name (.bound symbol) ∈
      VarDecl.sitesAll role envOf frame (before ++ decl :: after) := by
  induction before generalizing frame with
  | nil => exact List.mem_append_left _ (declared_mem_sites h)
  | cons first before ih => exact List.mem_append_right _ (ih h)

/-- What is hidden by accepted formals is passed over in their scope. -/
theorem hides_formals {formals : List VarDecl}
    (hsub : VarDecl.sitesAll .formal envOf .empty formals ⊆ all) :
    (Owner.variable formals).Hides all (VarDecl.extendAll .formal envOf .empty formals) := by
  intro decl h
  obtain ⟨type, fields, hl⟩ := VarDecl.isHidden_iff.mp h
  rcases VarDecl.lookup_extendAll.mp hl with hl | ⟨before, formal, after, hformals, hname, hv⟩
  · cases hl
  · have hmem : formal ∈ formals := by
      rw [hformals]
      exact List.mem_append_right _ List.mem_cons_self
    have hsite : .declared formal.name (.bound (.param type fields)) ∈
        VarDecl.sitesAll .formal envOf .empty formals := by
      rw [hformals]
      exact declared_mem_sitesAll hv
    exact ⟨formal, hmem, hname, _, hsub hsite⟩

end Declarations

/-! ## Statements and blocks -/

mutual

theorem covers_stmt {env : Env} (henv : env.Known) :
    ∀ st : Stmt, Covers all st.occurrences (st.sites env)
  | .act _ e => covers_expr henv e
  | .ifThen cond body | .loop _ cond body => by
      have hbody : Covers all (body.occurrences []) (body.sites env.enter) :=
        covers_block henv.enter Owner.hides_empty body
      exact (covers_expr henv cond).append hbody
  | .ifElse cond thenBlock elseBlock => by
      have hthen : Covers all (thenBlock.occurrences []) (thenBlock.sites env.enter) :=
        covers_block henv.enter Owner.hides_empty thenBlock
      have helse : Covers all (elseBlock.occurrences []) (elseBlock.sites env.enter) :=
        covers_block henv.enter Owner.hides_empty elseBlock
      exact (covers_expr henv cond).append (hthen.append helse)
  | .ret none => .nil
  | .ret (some e) => covers_expr henv e

theorem covers_block {env : Env} {formals : List VarDecl} (henv : env.Known)
    (hhide : (Owner.variable formals).Hides all env.inner) :
    ∀ b : Block, Covers all (b.occurrences formals) (b.sites env)
  | .mk decls stmts => by
      have hdecls : Covers all (decls.flatMap (VarDecl.occurrences (.variable formals)))
          (VarDecl.sitesAll .variable env.within env.inner decls) :=
        covers_varDecls (fun _ => henv.within) henv.inner (fun _ => hhide) decls
      have hstmts := covers_stmts (henv.declareAll .variable decls) stmts
      exact hdecls.append hstmts

theorem covers_stmts {env : Env} (henv : env.Known) :
    ∀ ss : List Stmt, Covers all (Stmt.occurrencesAll ss) (Stmt.sitesAll env ss)
  | [] => .nil
  | st :: ss => (covers_stmt henv st).append (covers_stmts henv ss)

end

/-! ## Programs -/

section Programs

variable {env : Env}

/-- The formals and the body of a function are visited in their order. -/
theorem covers_inside (henv : env.Known) (decl : FnDecl)
    (hformals : VarDecl.sitesAll .formal (decl.env env).enter.within .empty decl.formals ⊆ all) :
    Covers all
      (decl.formals.flatMap (VarDecl.occurrences .formal) ++ decl.body.occurrences decl.formals)
      (VarDecl.sitesAll .formal (decl.env env).enter.within .empty decl.formals ++
        decl.body.sites (decl.inside env)) := by
  have henv' : (decl.env env).enter.Known := (henv.fnDecl decl).enter
  have hscope : Covers all (decl.formals.flatMap (VarDecl.occurrences .formal))
      (VarDecl.sitesAll .formal (decl.env env).enter.within .empty decl.formals) :=
    covers_varDecls (fun _ => henv'.within) henv'.inner (fun hrole => by cases hrole) decl.formals
  have hbody :
      Covers all (decl.body.occurrences decl.formals) (decl.body.sites (decl.inside env)) :=
    covers_block (henv.inside decl) (hides_formals hformals) decl.body
  exact hscope.append hbody

theorem covers_fnDecl (henv : env.Known) (decl : FnDecl) :
    Covers all decl.occurrences (decl.sites env) := by
  apply Covers.of_subset
  intro hsub
  obtain ⟨-, hrest⟩ := List.append_subset.mp hsub
  obtain ⟨-, hrest⟩ := List.cons_subset.mp hrest
  obtain ⟨hformals, -⟩ := List.append_subset.mp hrest
  have hname : Covers all [.topName decl.name] [.declared decl.name (decl.verdict env)] := by
    rw [FnDecl.verdict, Verdict.ofSymbol]
    split
    · exact .single fun _ => .topBound rfl
    · exact .single fun _ => .topTaken
  exact (covers_passedOver decl.returns fun _ => .returnType).append
    (hname.append (covers_inside henv decl hformals))

theorem covers_structDecl (henv : env.Known) (decl : StructDecl) :
    Covers all decl.occurrences (decl.sites env) := by
  rw [StructDecl.sites]
  split
  · have hfields : Covers all (decl.fields.flatMap (VarDecl.occurrences (.field decl)))
        (VarDecl.sitesAll .variable (fun _ => decl.withFields env none) .empty decl.fields) :=
      covers_varDecls (fun _ _ => henv.withoutFields decl) Frame.All.empty
        (fun _ => Owner.hides_empty) decl.fields
    exact Covers.swap (.single fun _ => .topBound rfl) hfields
  · apply Covers.of_subset
    intro hsub
    have hfield (field : VarDecl) : Covers all (field.occurrences (.field decl))
        (field.type.passedOver ++ [.passedOver field.name]) := by
      have hpass : (Owner.field decl).PassesOver all field := hsub List.mem_cons_self
      have htype := covers_passedOver field.type fun _ => .typePassedOver hpass
      exact htype.append (.single fun _ => .varPassedOver hpass)
    exact Covers.append (.single fun _ => .topTaken) (.flatMap hfield decl.fields)

theorem covers_decl (henv : env.Known) (hhide : (Owner.variable []).Hides all env.inner)
    (d : Decl) : Covers all d.occurrences (d.sites env) := by
  cases d with
  | var decl => exact covers_varDecl henv fun _ => hhide decl
  | fn decl => exact covers_fnDecl henv decl
  | struct decl => exact covers_structDecl henv decl

/-- No formal is declared at the top. -/
theorem Owner.Hides.decl {owner : Owner} (h : owner.Hides all env.inner) (d : Decl) :
    owner.Hides all (d.env env).inner := by
  cases d with
  | var decl => exact h.extend
  | fn decl =>
      change owner.Hides all ((decl.verdict env).extend env.inner decl.name.name)
      rw [FnDecl.verdict, Verdict.ofSymbol]
      split
      · exact h.bind fun _ _ => by simp [FnDecl.symbol]
      · exact h
  | struct decl =>
      rw [Decl.env, StructDecl.env]
      split
      · exact h.bind fun _ _ => by simp
      · exact h

theorem covers_decls (henv : env.Known) (hhide : (Owner.variable []).Hides all env.inner)
    (ds : List Decl) : Covers all (ds.flatMap Decl.occurrences) (Decl.sitesAll env ds) := by
  induction ds generalizing env with
  | nil => exact .nil
  | cons d ds ih => exact (covers_decl henv hhide d).append (ih (henv.decl d) (hhide.decl d))

end Programs

namespace Program

/-- The sites of a program are those of its occurrences. -/
theorem covers_sites (p : Program) : Covers p.sites p.occurrences p.sites :=
  covers_decls Env.Known.top Owner.hides_empty p.decls

theorem perm_sites (p : Program) :
    (p.sites.map Site.ident).Perm (p.occurrences.map Occurrence.ident) :=
  (p.covers_sites (List.Subset.refl _)).1

theorem exists_settles (p : Program) {o : Occurrence} (ho : o ∈ p.occurrences) :
    ∃ x ∈ p.sites, Settles p.sites o x :=
  (p.covers_sites (List.Subset.refl _)).2 o ho

end Program

end NameCheck
