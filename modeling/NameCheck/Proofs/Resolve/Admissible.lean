import Mathlib.Data.List.Basic
import NameCheck.Proofs.Resolve.Globals

/-!
# Admissible declarations

Which declarations at the top can be accepted, told from the declarations alone: a variable of a
struct type needs the struct, and that this is one depends on which declaration of its name could be
accepted first.  The scope at the top binds every name as its first admissible declaration says.
-/

namespace NameCheck

/-! ## The rule -/

/-- The name that a declaration declares. -/
def Decl.name : Decl → Ident
  | .var decl => decl.name
  | .fn decl => decl.name
  | .struct decl => decl.name

mutual

/-- Whether a declaration is admissible after those before it.  A function or a struct always is; a
variable is if it is not `void` and, if its type names a struct, the first admissible declaration
of that name is one of a struct. -/
def Decl.Admissible (before : List Decl) : Decl → Prop
  | .fn _ | .struct _ => True
  | .var decl => decl.type.isVoid = false ∧ ∀ name, decl.type = .struct name →
      ∃ earlier struct, Decl.First before name.name earlier (.struct struct)
termination_by (before.length, 1)

/-- Among some declarations `d`, which comes after `before`, is the first admissible one of a
name. -/
def Decl.First (decls : List Decl) (name : String) (before : List Decl) (d : Decl) : Prop :=
  ∃ (after : List Decl) (_ : decls = before ++ d :: after), d.name.name = name ∧
    d.Admissible before ∧
    ∀ (earlier : List Decl) (other : Decl) (between : List Decl)
      (_ : before = earlier ++ other :: between),
      other.name.name = name → ¬other.Admissible earlier
termination_by (decls.length, 0)
decreasing_by
  all_goals
    subst_vars
    apply Prod.Lex.left
    simp only [List.length_append, List.length_cons]
    omega

end

/-- Whether a name has an admissible declaration among some declarations. -/
def Decl.Declared (decls : List Decl) (name : String) : Prop :=
  ∃ before d after, decls = before ++ d :: after ∧ d.name.name = name ∧ d.Admissible before

theorem Decl.admissible_fn (before : List Decl) (decl : FnDecl) :
    (Decl.fn decl).Admissible before := by
  rw [Admissible]
  trivial

theorem Decl.admissible_struct (before : List Decl) (decl : StructDecl) :
    (Decl.struct decl).Admissible before := by
  rw [Admissible]
  trivial

/-! ## The first of several -/

section First

variable {α : Type} {nameOf : α → String} {ok ok' : List α → α → Prop} {xs before : List α}
  {x : α} {name : String} {symbol : Symbol}

/-- Among some items `x`, which comes after `before`, is the first one of a name that is good
where it stands. -/
def FirstOf (nameOf : α → String) (ok : List α → α → Prop) (xs : List α) (name : String)
    (before : List α) (x : α) : Prop :=
  ∃ after, xs = before ++ x :: after ∧ nameOf x = name ∧ ok before x ∧
    ∀ earlier other between, before = earlier ++ other :: between → nameOf other = name →
      ¬ok earlier other

namespace FirstOf

theorem congr (h : ∀ earlier other later, xs = earlier ++ other :: later →
    (ok earlier other ↔ ok' earlier other)) :
    FirstOf nameOf ok xs name before x ↔ FirstOf nameOf ok' xs name before x := by
  refine exists_congr fun after => and_congr_right fun hxs => and_congr_right fun _ =>
    and_congr (h before x after hxs) ?_
  refine forall₄_congr fun earlier other between hbefore => imp_congr_right fun _ => ?_
  have hxs' : xs = earlier ++ other :: (between ++ x :: after) := by simp [hxs, hbefore]
  exact not_congr (h earlier other _ hxs')

theorem concat (h : FirstOf nameOf ok xs name before x) (y : α) :
    FirstOf nameOf ok (xs ++ [y]) name before x := by
  obtain ⟨after, rfl, hname, hok, hearlier⟩ := h
  exact ⟨after ++ [y], by simp, hname, hok, hearlier⟩

/-- The first good item is the last of all, or it was there before. -/
theorem cases {y : α} (h : FirstOf nameOf ok (xs ++ [y]) name before x) :
    FirstOf nameOf ok xs name before x ∨ before = xs ∧ x = y := by
  obtain ⟨after, hxs, hname, hok, hearlier⟩ := h
  rcases List.eq_nil_or_concat' after with rfl | ⟨after, last, rfl⟩
  · obtain ⟨rfl, hlast⟩ := List.append_inj' hxs rfl
    exact Or.inr ⟨rfl, (List.cons.inj hlast).1.symm⟩
  · rw [← List.cons_append, ← List.append_assoc] at hxs
    obtain ⟨rfl, -⟩ := List.append_inj' hxs rfl
    exact Or.inl ⟨after, rfl, hname, hok, hearlier⟩

end FirstOf

/-! ## Scopes that grow -/

variable {scope : List α → Frame Symbol} {candidate : List α → α → Option Symbol}

/-- A scope grows by items: each binds its name to its symbol, if it has one and the name is
free. -/
structure GrowsBy (nameOf : α → String) (candidate : List α → α → Option Symbol)
    (scope : List α → Frame Symbol) : Prop where
  nil : scope [] = .empty
  concat : ∀ xs x name symbol, (scope (xs ++ [x])).lookup name = some symbol ↔
    (scope xs).lookup name = some symbol ∨
      (scope xs).lookup name = none ∧ nameOf x = name ∧ candidate xs x = some symbol

namespace GrowsBy

variable (h : GrowsBy nameOf candidate scope)
include h

/-- A name that is bound stays bound. -/
theorem isSome_lookup_append (hl : ((scope xs).lookup name).isSome) (ys : List α) :
    ((scope (xs ++ ys)).lookup name).isSome := by
  induction ys using List.reverseRecOn with
  | nil => rwa [List.append_nil]
  | append_singleton ys y ih =>
      obtain ⟨symbol, hsymbol⟩ := Option.isSome_iff_exists.mp ih
      rw [← List.append_assoc]
      exact Option.isSome_iff_exists.mpr ⟨symbol, (h.concat _ y _ _).mpr (Or.inl hsymbol)⟩

/-- After an item that has a symbol its name is bound. -/
theorem isSome_lookup (hxs : xs = before ++ x :: after) (hname : nameOf x = name)
    (hx : (candidate before x).isSome) : ((scope xs).lookup name).isSome := by
  obtain ⟨symbol, hsymbol⟩ := Option.isSome_iff_exists.mp hx
  have hhere : ((scope (before ++ [x])).lookup name).isSome := by
    cases hl : (scope before).lookup name with
    | none =>
        have hnew := (h.concat before x name symbol).mpr (Or.inr ⟨hl, hname, hsymbol⟩)
        rw [hnew]
        rfl
    | some other =>
        rw [(h.concat before x name other).mpr (Or.inl hl)]
        rfl
  rw [hxs, ← List.singleton_append, ← List.append_assoc]
  exact h.isSome_lookup_append hhere after

/-- A scope that grows by items binds a name as the first one does that has a symbol. -/
theorem lookup_iff :
    (scope xs).lookup name = some symbol ↔ ∃ before x,
      FirstOf nameOf (fun earlier y => (candidate earlier y).isSome) xs name before x ∧
        candidate before x = some symbol := by
  induction xs using List.reverseRecOn generalizing symbol with
  | nil =>
      rw [h.nil]
      constructor
      · intro hl
        cases hl
      · rintro ⟨before, x, ⟨after, hxs, -⟩, -⟩
        cases before <;> cases hxs
  | append_singleton xs y ih =>
      rw [h.concat]
      constructor
      · rintro (hl | ⟨hfree, hname, hsymbol⟩)
        · obtain ⟨before, x, hfirst, hx⟩ := ih.mp hl
          exact ⟨before, x, hfirst.concat y, hx⟩
        · have hy : (candidate xs y).isSome := Option.isSome_iff_exists.mpr ⟨symbol, hsymbol⟩
          refine ⟨xs, y, ⟨[], rfl, hname, hy, ?_⟩, hsymbol⟩
          intro earlier other between hxs hother hsome
          have hbound := h.isSome_lookup hxs hother hsome
          rw [hfree] at hbound
          cases hbound
      · rintro ⟨before, x, hfirst, hx⟩
        rcases hfirst.cases with hfirst' | ⟨rfl, rfl⟩
        · exact Or.inl (ih.mpr ⟨before, x, hfirst', hx⟩)
        · obtain ⟨after, -, hname, -, hearlier⟩ := hfirst
          refine Or.inr ⟨Option.eq_none_iff_forall_not_mem.mpr fun other hother => ?_, hname, hx⟩
          obtain ⟨earlier, z, ⟨between, hbefore, hz, hsome, -⟩, -⟩ := ih.mp hother
          exact hearlier earlier z between hbefore hz hsome

theorem isSome_lookup_iff : ((scope xs).lookup name).isSome ↔
    ∃ before x after, xs = before ++ x :: after ∧ nameOf x = name ∧
      (candidate before x).isSome := by
  constructor
  · intro hl
    obtain ⟨symbol, hsymbol⟩ := Option.isSome_iff_exists.mp hl
    obtain ⟨before, x, ⟨after, hxs, hname, hx, -⟩, -⟩ := h.lookup_iff.mp hsymbol
    exact ⟨before, x, after, hxs, hname, hx⟩
  · rintro ⟨before, x, after, hxs, hname, hx⟩
    exact h.isSome_lookup hxs hname hx

end GrowsBy

end First

/-! ## The scope at the top -/

/-- The symbol that a declaration has for its name, if it can be accepted. -/
def Decl.symbolIn (env : Env) : Decl → Option Symbol
  | .var decl => if decl.type.isVoid then none else decl.type.symbolIn .variable env
  | .fn decl => some decl.symbol
  | .struct decl => some (.structDecl (some (decl.table env)))

variable {env : Env} {name : String} {symbol : Symbol}

theorem Verdict.lookup_extend_ofSymbol {frame : Frame Symbol} {own : String} {other : Symbol} :
    ((Verdict.ofSymbol frame own other).extend frame own).lookup name = some symbol ↔
      frame.lookup name = some symbol ∨
        frame.lookup name = none ∧ own = name ∧ some other = some symbol := by
  rw [Verdict.ofSymbol]
  cases hl : frame.lookup own with
  | none =>
      rw [Verdict.extend, Frame.lookup_cons]
      by_cases hn : name = own
      · subst hn
        simp [hl]
      · have hn' : ¬own = name := fun heq => hn heq.symm
        simp [hn, hn']
  | some bound =>
      simp only [Verdict.extend]
      refine ⟨Or.inl, Or.rec id ?_⟩
      rintro ⟨hfree, rfl, -⟩
      rw [hl] at hfree
      cases hfree

/-- A variable or field binds its name if it can be accepted and the name is free. -/
theorem VarDecl.lookup_extend_variable (env : Env) (frame : Frame Symbol) (decl : VarDecl)
    (name : String) (symbol : Symbol) :
    (decl.extend .variable env frame).lookup name = some symbol ↔
      frame.lookup name = some symbol ∨
        frame.lookup name = none ∧ decl.name.name = name ∧
          (Decl.var decl).symbolIn env = some symbol := by
  rw [lookup_extend, verdict_eq_bound_iff, Decl.symbolIn, Option.ite_none_left_eq_some]
  refine or_congr_right ⟨?_, ?_⟩
  · rintro ⟨rfl, hv, -, hs, hfree⟩
    exact ⟨hfree, rfl, by simp [hv], hs⟩
  · rintro ⟨hfree, rfl, hv, hs⟩
    refine ⟨rfl, Bool.eq_false_iff.mpr hv, fun ⟨_, hhidden⟩ => ?_, hs, hfree⟩
    obtain ⟨type, fields, hl⟩ := isHidden_iff.mp hhidden
    rw [hfree] at hl
    cases hl

/-- The field table of a struct grows by its fields. -/
theorem VarDecl.growsBy_extendAll (env : Env) :
    GrowsBy (fun field : VarDecl => field.name.name)
      (fun _ field => (Decl.var field).symbolIn env)
      (extendAll .variable (fun _ => env) .empty) where
  nil := rfl
  concat fields field name symbol := by
    rw [extendAll_append]
    exact lookup_extend_variable env _ field name symbol

/-- A declaration binds its name if it can be accepted and the name is free. -/
theorem Decl.lookup_env (env : Env) (d : Decl) (name : String) (symbol : Symbol) :
    (d.env env).inner.lookup name = some symbol ↔
      env.inner.lookup name = some symbol ∨
        env.inner.lookup name = none ∧ d.name.name = name ∧ d.symbolIn env = some symbol := by
  cases d with
  | var decl => exact decl.lookup_extend_variable env env.inner name symbol
  | fn decl => exact Verdict.lookup_extend_ofSymbol
  | struct decl =>
      have hinner : (decl.env env).inner =
          (Verdict.ofSymbol env.inner decl.name.name
            (.structDecl (some (decl.table env)))).extend env.inner decl.name.name := by
        rw [StructDecl.env, Verdict.ofSymbol]
        cases env.inner.lookup decl.name.name <;> rfl
      rw [Decl.env, hinner]
      exact Verdict.lookup_extend_ofSymbol

namespace Program

/-- The scope at the top grows by the declarations of a program. -/
theorem growsBy_env : GrowsBy (fun d : Decl => d.name.name)
    (fun before d => d.symbolIn (Program.env ⟨before⟩))
    (fun decls => (Program.env ⟨decls⟩).inner) where
  nil := rfl
  concat decls d name symbol := by
    rw [env_append]
    exact d.lookup_env (Program.env ⟨decls⟩) name symbol

theorem findStruct_env {p : Program} {fields : Option (ScopeStack Symbol)} :
    p.env.findStruct name = some fields ↔ p.env.tables name fields := by
  have hfind : p.env.find name = p.env.inner.lookup name := by
    rw [Env.find, Env.frames, outer_env, findIn]
    simp
  rw [Env.findStruct, hfind, Env.tables]
  cases p.env.inner.lookup name with
  | none => simp
  | some symbol => cases symbol <;> simp

end Program

namespace Decl

variable {decls before : List Decl} {d : Decl}

theorem exists_struct_of_symbolIn {fields : Option (ScopeStack Symbol)}
    (h : d.symbolIn env = some (.structDecl fields)) : ∃ struct, d = .struct struct := by
  cases d with
  | var decl =>
      obtain ⟨-, hs⟩ := Option.ite_none_left_eq_some.mp h
      exact absurd rfl (TypeSpec.symbolIn_ne_structDecl hs fields)
  | fn decl => cases h
  | struct struct => exact ⟨struct, rfl⟩

theorem first_iff : First decls name before d ↔
    FirstOf (fun d : Decl => d.name.name) (fun earlier d => d.Admissible earlier) decls name
      before d := by
  rw [First]
  simp only [FirstOf, exists_prop]

/-- A name stands for a struct if its first admissible declaration is one of a struct. -/
theorem exists_first_struct_iff (h : ∀ earlier other later, before = earlier ++ other :: later →
    (other.Admissible earlier ↔ (other.symbolIn (Program.env ⟨earlier⟩)).isSome)) :
    (∃ earlier struct, First before name earlier (.struct struct)) ↔
      ((Program.env ⟨before⟩).findStruct name).isSome := by
  simp only [first_iff, FirstOf.congr h]
  rw [Option.isSome_iff_exists]
  simp only [Program.findStruct_env]
  constructor
  · rintro ⟨earlier, struct, hfirst⟩
    exact ⟨_, Program.growsBy_env.lookup_iff.mpr ⟨earlier, _, hfirst, rfl⟩⟩
  · rintro ⟨fields, hl⟩
    obtain ⟨earlier, d, hfirst, hsymbol⟩ := Program.growsBy_env.lookup_iff.mp hl
    obtain ⟨struct, rfl⟩ := exists_struct_of_symbolIn hsymbol
    exact ⟨earlier, struct, hfirst⟩

/-- A declaration is admissible if it has a symbol where it stands. -/
theorem admissible_iff (before : List Decl) (d : Decl) :
    d.Admissible before ↔ (d.symbolIn (Program.env ⟨before⟩)).isSome := by
  induction hlength : before.length using Nat.strongRecOn generalizing before d with
  | ind n ih =>
    cases d with
    | fn decl => exact iff_of_true (admissible_fn before decl) rfl
    | struct decl => exact iff_of_true (admissible_struct before decl) rfl
    | var decl =>
        -- only shorter beginnings decide what the name of the type stands for
        have hshorter : ∀ earlier other later, before = earlier ++ other :: later →
            (other.Admissible earlier ↔
              (other.symbolIn (Program.env ⟨earlier⟩)).isSome) := by
          intro earlier other later hbefore
          refine ih earlier.length ?_ earlier other rfl
          rw [← hlength, hbefore, List.length_append, List.length_cons]
          omega
        obtain ⟨type, name⟩ := decl
        rw [Admissible, symbolIn]
        cases type with
        | struct struct =>
            simp only [TypeSpec.isVoid, true_and, TypeSpec.struct.injEq, forall_eq',
              exists_first_struct_iff hshorter]
            simp [TypeSpec.symbolIn, TypeSpec.structName?]
        | _ => simp [TypeSpec.isVoid, TypeSpec.symbolIn, TypeSpec.structName?]

/-- A variable of a struct that comes too late to have its name is not admissible. -/
example : ¬Admissible [.var ⟨.int, ⟨"M", ⟨1, 5⟩⟩⟩, .struct ⟨⟨"M", ⟨2, 8⟩⟩, []⟩]
    (.var ⟨.struct ⟨"M", ⟨3, 1⟩⟩, ⟨"y", ⟨3, 3⟩⟩⟩) := by
  rw [admissible_iff]
  decide

/-- A name is bound at the top if it has an admissible declaration. -/
theorem declared_iff : Declared decls name ↔
    ((Program.env ⟨decls⟩).inner.lookup name).isSome := by
  rw [Program.growsBy_env.isSome_lookup_iff]
  simp only [Declared, admissible_iff]

/-- A name that is bound at the top has a first admissible declaration, and its symbol. -/
theorem exists_first_of_lookup
    (h : (Program.env ⟨decls⟩).inner.lookup name = some symbol) :
    ∃ before d, First decls name before d ∧ d.symbolIn (Program.env ⟨before⟩) = some symbol := by
  obtain ⟨before, d, hfirst, hsymbol⟩ := Program.growsBy_env.lookup_iff.mp h
  refine ⟨before, d, ?_, hsymbol⟩
  simp only [first_iff, admissible_iff]
  exact hfirst

end Decl

end NameCheck
