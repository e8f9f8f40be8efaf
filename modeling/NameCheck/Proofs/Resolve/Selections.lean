import Mathlib.Data.List.Induction
import NameCheck.Proofs.Resolve.Lexical
import NameCheck.Proofs.Resolve.Occurrences

/-!
# What fields are selected from

The grammar lets a field be selected from a location only: from a name with fields after it.  In a
tree that was read, a selection is reported where this name stands.
-/

namespace NameCheck

open Grammar

/-! ## Locations -/

namespace Grammar

theorem use_mem_sites (env : Env) (root : Ident) (fields : List Ident) :
    .use root (env.find root.name) ∈ (dots root fields).sites env := by
  induction fields using List.reverseRecOn with
  | nil => exact List.mem_cons_self
  | append_singleton fields field ih =>
      rw [dots_concat]
      exact List.mem_append_left _ ih

end Grammar

/-- A field is selected from a location. -/
def Occurrence.Rooted : Occurrence → Prop
  | .member base _ => ∃ root fields, base = dots root fields
  | _ => True

/-- All fields among some occurrences are selected from locations. -/
def Occurrence.AllRooted (os : List Occurrence) : Prop :=
  ∀ o ∈ os, o.Rooted

namespace Occurrence.AllRooted

variable {o : Occurrence} {os ps : List Occurrence}

theorem nil : AllRooted [] := by
  intro o ho
  cases ho

theorem cons (ho : o.Rooted) (hos : AllRooted os) : AllRooted (o :: os) :=
  List.forall_mem_cons.mpr ⟨ho, hos⟩

theorem append (hos : AllRooted os) (hps : AllRooted ps) : AllRooted (os ++ ps) :=
  List.forall_mem_append.mpr ⟨hos, hps⟩

theorem flatMap {α : Type} {f : α → List Occurrence} {as : List α}
    (h : ∀ a ∈ as, AllRooted (f a)) : AllRooted (as.flatMap f) := by
  intro o ho
  obtain ⟨a, ha, ho⟩ := List.mem_flatMap.mp ho
  exact h a ha o ho

theorem type (f : Ident → Occurrence) (hf : ∀ id, (f id).Rooted) (type : TypeSpec) :
    AllRooted (type.structName?.toList.map f) := by
  intro o ho
  obtain ⟨id, -, rfl⟩ := List.mem_map.mp ho
  exact hf id

theorem varDecl (owner : Owner) (decl : VarDecl) : AllRooted (decl.occurrences owner) :=
  (type (.typeName owner decl) (fun _ => trivial) decl.type).append (.cons trivial .nil)

theorem varDecls (owner : Owner) (decls : List VarDecl) :
    AllRooted (decls.flatMap (VarDecl.occurrences owner)) :=
  flatMap fun decl _ => varDecl owner decl

theorem exprs {es : List Expr} (h : ∀ e ∈ es, AllRooted e.occurrences) :
    AllRooted (Expr.occurrencesAll es) := by
  induction es with
  | nil => exact .nil
  | cons e es ih =>
      obtain ⟨he, hes⟩ := List.forall_mem_cons.mp h
      exact he.append (ih hes)

theorem stmts {ss : List Stmt} (h : ∀ st ∈ ss, AllRooted st.occurrences) :
    AllRooted (Stmt.occurrencesAll ss) := by
  induction ss with
  | nil => exact .nil
  | cons st ss ih =>
      obtain ⟨hst, hss⟩ := List.forall_mem_cons.mp h
      exact hst.append (ih hss)

theorem dots (root : Ident) (fields : List Ident) :
    AllRooted (Grammar.dots root fields).occurrences := by
  induction fields using List.reverseRecOn with
  | nil => exact .cons trivial .nil
  | append_singleton fields field ih =>
      rw [dots_concat]
      exact ih.append (.cons ⟨root, fields, rfl⟩ .nil)

theorem prefixed {operand : Expr} (ops : List UnaryOp) (h : AllRooted operand.occurrences) :
    AllRooted (Grammar.prefixed ops operand).occurrences := by
  induction ops with
  | nil => exact h
  | cons op ops ih => exact ih

theorem folded {first : Expr} {others : List (BinaryOp × Expr)}
    (h : AllRooted first.occurrences) (hos : ∀ other ∈ others, AllRooted other.2.occurrences) :
    AllRooted (Grammar.folded first others).occurrences := by
  unfold Grammar.folded
  induction others generalizing first with
  | nil => exact h
  | cons other others ih =>
      obtain ⟨hother, hothers⟩ := List.forall_mem_cons.mp hos
      exact ih (h.append hother) hothers

theorem fnDecl {decl : FnDecl} (h : AllRooted (decl.body.occurrences decl.formals)) :
    AllRooted decl.occurrences :=
  (type .returnType (fun _ => trivial) decl.returns).append
    (.cons trivial ((varDecls .formal decl.formals).append h))

end Occurrence.AllRooted

/-! ## Trees of derivations -/

open Occurrence (AllRooted)

/-- The fields in a tree are selected from locations. -/
def Grammar.Nonterminal.Rooted : (n : Nonterminal) → n.Tree → Prop
  | .program, p => AllRooted p.occurrences
  | .decl, d | .structDecl, d | .fnDecl, d => AllRooted d.occurrences
  | .varDecl, _ | .formal, _ | .type, _ | .dotName, _ | .unaryOp, _ => True
  | .block, b => ∀ formals, AllRooted (b.occurrences formals)
  | .stmt, st => AllRooted st.occurrences
  | .exp, e | .level _, e | .atom, e | .call, e => AllRooted e.occurrences
  | .loc, e => ∃ root fields, e = dots root fields
  | .operation _, (_, e) => AllRooted e.occurrences
  | .many n, ts | .list n, ts => ∀ t ∈ ts, n.Rooted t
  | .next n, t => n.Rooted t

theorem Occurrence.AllRooted.loc {e : Expr} (h : Nonterminal.loc.Rooted e) :
    AllRooted e.occurrences := by
  obtain ⟨root, fields, rfl⟩ := h
  exact .dots root fields

/-- In the tree of a derivation fields are selected from locations. -/
theorem Grammar.Derives.rooted {n : Nonterminal} {ts : List Lexeme} {t : n.Tree}
    (h : Derives n ts t) : n.Rooted t := by
  induction h with
  | program _ ih => exact .flatMap ih
  | declStruct _ ih | declFn _ ih => exact ih
  | declVar => exact .varDecl _ _
  | structDecl => exact .cons trivial (.varDecls _ _)
  | varDecl | basicType | structType | formal | unaryOp | dotName => trivial
  | fnDecl _ _ _ _ _ ihb => exact .fnDecl (ihb _)
  | block _ _ _ ihss => exact fun formals => (AllRooted.varDecls _ _).append (.stmts ihss)
  | assignStmt _ _ ihl ihe => exact (AllRooted.loc ihl).append ihe
  | postStmt _ _ ih | preStmt _ _ ih | readStmt _ ih => exact AllRooted.loc ih
  | writeStmt _ ih | callStmt _ ih | returnValue _ ih => exact ih
  | ifThen _ _ ihe ihb | loopStmt _ _ _ ihe ihb => exact AllRooted.append ihe (ihb [])
  | ifElse _ _ _ ihe ihb ihb' => exact AllRooted.append ihe ((ihb []).append (ihb' []))
  | returnStmt => exact AllRooted.nil
  | assign _ _ ihl ihe => exact (AllRooted.loc ihl).append ihe
  | or _ ih => exact ih
  | level _ _ _ ihe ihos => exact AllRooted.folded ihe ihos
  | operation _ _ _ ih => exact ih
  | unary _ _ _ ihe => exact AllRooted.prefixed _ ihe
  | atomCall _ ih | atomParen _ ih => exact ih
  | atomLoc _ ih => exact AllRooted.loc ih
  | atomInt | atomStr | atomTrue | atomFalse => exact AllRooted.nil
  | call _ ih => exact AllRooted.cons trivial (.exprs ih)
  | loc => exact ⟨_, _, rfl⟩
  | manyNil | listNil =>
      intro t ht
      cases ht
  | manyCons _ _ ih ihs | listCons _ _ ih ihs => exact List.forall_mem_cons.mpr ⟨ih, ihs⟩
  | next _ ih => exact ih

/-- In a program that was read, fields are selected from locations. -/
theorem Program.allRooted_of_parse {lexemes : List Lexeme} {eoi : Span} {p : Program}
    (h : parse lexemes eoi = .ok p) : AllRooted p.occurrences :=
  (parse_ok_iff_derives.mp h).rooted

end NameCheck
