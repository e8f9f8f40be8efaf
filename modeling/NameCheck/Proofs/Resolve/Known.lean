import NameCheck.Proofs.Resolve.Visibility

/-!
# Scopes bind what is known

Only where no meaning was found does the symbol that stands in for one appear.  No scope binds a
name to it, and no field table does, at any depth.
-/

namespace NameCheck

namespace Symbol

/-- A symbol that stands for a meaning, as do those in its field table. -/
inductive Known : Symbol → Prop where
  | intro {symbol : Symbol} (defined : symbol.isUndefined = false)
      (inside : ∀ t ∈ symbol.table?, ∀ frame ∈ t.frames, ∀ entry ∈ frame.entries,
        Known entry.2) : Known symbol

/-- The field table of a symbol, if there is one, binds what is known. -/
def Filled (symbol : Symbol) : Prop :=
  ∀ t ∈ symbol.table?, t.All Known

theorem Known.defined {symbol : Symbol} (h : symbol.Known) : symbol.isUndefined = false := by
  obtain ⟨hdefined, -⟩ := h
  exact hdefined

theorem Known.filled {symbol : Symbol} (h : symbol.Known) : symbol.Filled := by
  obtain ⟨-, hinside⟩ := h
  exact hinside

theorem filled_of_table_none {symbol : Symbol} (h : symbol.table? = none) : symbol.Filled := by
  intro t ht
  rw [h] at ht
  cases ht

theorem filled_undefined : undefined.Filled :=
  filled_of_table_none rfl

theorem known_of_table_none {symbol : Symbol} (hd : symbol.isUndefined = false)
    (ht : symbol.table? = none) : symbol.Known :=
  .intro hd (filled_of_table_none ht)

end Symbol

/-- What the scopes of an environment bind is known. -/
def Env.Known (env : Env) : Prop :=
  ∀ frame ∈ env.frames, frame.All Symbol.Known

section Lookups

variable {env : Env} {frames : List (Frame Symbol)} {frame : Frame Symbol} {name : String}
  {symbol base : Symbol} {fields : Option (ScopeStack Symbol)} {role : Role} {type : TypeSpec}

/-! ## Lookups -/

theorem known_of_findIn (h : ∀ frame ∈ frames, frame.All Symbol.Known)
    (hf : findIn frames name = some symbol) : symbol.Known := by
  rw [findIn] at hf
  obtain ⟨frame, hframe, hl⟩ := List.exists_of_findSome?_eq_some hf
  exact (h frame hframe).lookup hl

theorem Symbol.Filled.member (h : base.Filled) (hm : base.member name = some symbol) :
    symbol.Known := by
  rw [Symbol.member, Option.bind_eq_some_iff] at hm
  obtain ⟨table, htable, hf⟩ := hm
  exact known_of_findIn (h table (Symbol.table?_of_fields? htable)) hf

namespace Env.Known

theorem top : Env.top.Known := by
  intro frame hframe
  obtain rfl : frame = .empty := List.mem_singleton.mp hframe
  exact Frame.All.empty

theorem inner (h : env.Known) : env.inner.All Symbol.Known :=
  h env.inner List.mem_cons_self

theorem enter (h : env.Known) : env.enter.Known := by
  intro frame hframe
  rcases List.mem_cons.mp hframe with rfl | hframe
  · exact Frame.All.empty
  · exact h frame hframe

theorem within (h : env.Known) (hf : frame.All Symbol.Known) : (env.within frame).Known := by
  intro other hother
  rcases List.mem_cons.mp hother with rfl | hother
  · exact hf
  · exact h other (List.mem_cons_of_mem _ hother)

theorem find (h : env.Known) (hf : env.find name = some symbol) : symbol.Known :=
  known_of_findIn h hf

theorem findStruct (h : env.Known) (hf : env.findStruct name = some fields) :
    (Symbol.structDecl fields).Filled := by
  rw [Env.findStruct] at hf
  split at hf
  · rename_i table hfind
    cases hf
    exact (h.find hfind).filled
  · cases hf

end Env.Known

theorem filled_meaning (h : env.Known) : ∀ e : Expr, (e.meaning env).Filled
  | .int .. | .str .. | .bool .. => Symbol.filled_undefined
  | .id _ name | .call _ name _ => by
      rw [Expr.meaning]
      cases hf : env.find name.name with
      | none => exact Symbol.filled_undefined
      | some symbol => exact (h.find hf).filled
  | .dot _ base field => by
      rw [Expr.meaning]
      split
      · exact Symbol.filled_undefined
      · cases hm : (base.meaning env).member field.name with
        | none => exact Symbol.filled_undefined
        | some symbol => exact ((filled_meaning h base).member hm).filled
  | .assign _ lhs _ | .binary _ _ lhs _ => filled_meaning h lhs
  | .unary _ _ operand => filled_meaning h operand

/-! ## Declarations -/

theorem Role.known_symbol (h : (Symbol.structDecl fields).Filled) :
    (role.symbol type fields).Known := by
  cases role <;> cases type <;> exact .intro rfl h

theorem TypeSpec.known_symbolIn (h : env.Known) (hs : type.symbolIn role env = some symbol) :
    symbol.Known := by
  rw [TypeSpec.symbolIn] at hs
  split at hs
  · obtain ⟨fields, hfields, rfl⟩ := Option.map_eq_some_iff.mp hs
    exact Role.known_symbol (h.findStruct hfields)
  · cases hs
    exact Role.known_symbol (Symbol.filled_of_table_none rfl)

theorem Verdict.known_extend {verdict : Verdict} (hf : frame.All Symbol.Known)
    (hv : ∀ symbol, verdict = .bound symbol → symbol.Known) :
    (verdict.extend frame name).All Symbol.Known := by
  cases verdict with
  | bound symbol => exact hf.cons (hv symbol rfl)
  | _ => exact hf

end Lookups

namespace VarDecl

variable {env : Env} {frame : Frame Symbol} {role : Role} {symbol : Symbol} {decl : VarDecl}
  {envOf : Frame Symbol → Env}

theorem known_of_bound (h : env.Known) (hv : decl.verdict role env frame = .bound symbol) :
    symbol.Known :=
  TypeSpec.known_symbolIn h (verdict_eq_bound_iff.mp hv).2.2.1

theorem known_extend (h : env.Known) (hf : frame.All Symbol.Known) :
    (decl.extend role env frame).All Symbol.Known :=
  Verdict.known_extend hf fun _ hv => known_of_bound h hv

theorem known_extendAll (h : ∀ frame, frame.All Symbol.Known → (envOf frame).Known)
    (hf : frame.All Symbol.Known) (decls : List VarDecl) :
    (extendAll role envOf frame decls).All Symbol.Known := by
  induction decls generalizing frame with
  | nil => exact hf
  | cons decl decls ih => exact ih (known_extend (h frame hf) hf)

end VarDecl

namespace Env.Known

variable {env : Env}

theorem declareAll (h : env.Known) (role : Role) (decls : List VarDecl) :
    (env.declareAll role decls).Known :=
  h.within (VarDecl.known_extendAll (fun _ => h.within) h.inner decls)

theorem fnDecl (h : env.Known) (decl : FnDecl) : (decl.env env).Known := by
  refine h.within (Verdict.known_extend h.inner fun symbol hv => ?_)
  rw [FnDecl.verdict, Verdict.ofSymbol] at hv
  split at hv
  · cases hv
    exact Symbol.known_of_table_none rfl rfl
  · cases hv

theorem inside (h : env.Known) (decl : FnDecl) : (decl.inside env).Known :=
  ((h.fnDecl decl).enter).declareAll .formal decl.formals

theorem withFields (h : env.Known) (decl : StructDecl) {fields : Option (ScopeStack Symbol)}
    (hf : (Symbol.structDecl fields).Filled) : (decl.withFields env fields).Known :=
  h.within (h.inner.cons (.intro rfl hf))

theorem withoutFields (h : env.Known) (decl : StructDecl) : (decl.withFields env none).Known :=
  h.withFields decl (Symbol.filled_of_table_none rfl)

theorem structDecl (h : env.Known) (decl : StructDecl) : (decl.env env).Known := by
  rw [StructDecl.env]
  split
  · refine h.withFields decl fun t ht => ?_
    cases ht
    intro frame hframe
    obtain rfl := List.mem_singleton.mp hframe
    exact VarDecl.known_extendAll (fun _ _ => h.withoutFields decl) Frame.All.empty decl.fields
  · exact h

theorem decl (h : env.Known) (d : Decl) : (d.env env).Known := by
  cases d with
  | var decl => exact h.declareAll .variable [decl]
  | fn decl => exact h.fnDecl decl
  | struct decl => exact h.structDecl decl

end Env.Known

end NameCheck
