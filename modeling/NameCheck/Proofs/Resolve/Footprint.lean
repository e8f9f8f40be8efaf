import NameCheck.Proofs.Resolve.Safety

/-!
# What steps leave alone

Statements and expressions leave the scopes as they find them, however deep the blocks inside them
nest and whatever these declare: a block works on a scope of its own, which is gone after it.  A
variable or a function adds at most its own name to the innermost scope.  Apart from that, all that
an analysis does is to report and to record.  This holds whatever the steps come to, so for states
as well in which a misuse of a field table would stop them.
-/

namespace NameCheck

/-! ## Changes of scopes -/

namespace ScopeStack

/-- A scope stack with at most one name more: the name was free in the innermost scope, and nothing
else changed. -/
inductive Gains (name : String) : ScopeStack Symbol → ScopeStack Symbol → Prop where
  | nothing {stack : ScopeStack Symbol} : Gains name stack stack
  | binding {frame : Frame Symbol} {outer : List (Frame Symbol)} {symbol : Symbol}
      (hfree : frame.lookup name = none) :
      Gains name ⟨frame :: outer⟩ ⟨⟨(name, symbol) :: frame.entries⟩ :: outer⟩

/-- The same scopes, but for what the innermost one binds. -/
def SameOuter (stack stack' : ScopeStack Symbol) : Prop :=
  stack'.frames ≠ [] ∧ stack'.frames.tail = stack.frames.tail

variable {stack stack' : ScopeStack Symbol} {name : String}

theorem Gains.sameOuter (h : stack.Gains name stack') (hopen : stack.frames ≠ []) :
    stack.SameOuter stack' := by
  cases h with
  | nothing => exact ⟨hopen, rfl⟩
  | binding hfree => exact ⟨List.cons_ne_nil _ _, rfl⟩

theorem SameOuter.pop (h : stack.push.SameOuter stack') : stack'.pop = .ok stack := by
  obtain ⟨hopen, htail⟩ := h
  obtain ⟨frames⟩ := stack'
  cases frames with
  | nil => exact absurd rfl hopen
  | cons frame outer => exact congrArg (Except.ok ∘ ScopeStack.mk) htail

theorem gains_of_declare {symbol : Symbol} (h : stack.declare name symbol = .ok stack') :
    stack.Gains name stack' := by
  obtain ⟨frames⟩ := stack
  cases frames with
  | nil => cases h
  | cons frame outer =>
      simp only [declare, add] at h
      split at h
      · rename_i frame' hdeclare
        obtain ⟨hfree, rfl⟩ := Frame.declare?_eq_some_iff.mp hdeclare
        cases h
        exact .binding hfree
      · cases h

/-- How scopes may change by one step after another. -/
structure Change (R : ScopeStack Symbol → ScopeStack Symbol → Prop) : Prop where
  refl : ∀ stack, stack.frames ≠ [] → R stack stack
  trans : ∀ stack stack' stack'', R stack stack' → R stack' stack'' → R stack stack''
  opened : ∀ stack stack', stack.frames ≠ [] → R stack stack' → stack'.frames ≠ []

/-- A name that is bound cannot be bound once more, so several steps add it once at most. -/
theorem Change.gains : Change (Gains name) where
  refl := fun _ _ => .nothing
  trans := fun stack stack' stack'' h h' => by
    cases h with
    | nothing => exact h'
    | binding hfree =>
        cases h' with
        | nothing => exact .binding hfree
        | binding htaken =>
            rw [Frame.lookup_cons, if_pos rfl] at htaken
            cases htaken
  opened := fun _ _ hopen h => (h.sameOuter hopen).1

theorem Change.eq : Change Eq where
  refl := fun _ _ => rfl
  trans := fun _ _ _ => Eq.trans
  opened := fun _ _ hopen h => h ▸ hopen

theorem Change.sameOuter : Change SameOuter where
  refl := fun _ hopen => ⟨hopen, rfl⟩
  trans := fun _ _ _ h h' => ⟨h'.1, h'.2.trans h.2⟩
  opened := fun _ _ _ h => h.1

end ScopeStack

namespace Analysis

/-- A state that an analysis can go on from: at least one scope is open, and every attached field
table has a frame of its own. -/
def Ready (s : Analysis) : Prop :=
  ∃ d, s.Framed (d + 1)

/-- From `s` to `t` misuses were reported and meanings recorded, after those that there were. -/
structure NotedUpTo (s t : Analysis) : Prop where
  errors : s.errors <+: t.errors
  resolutions : ∃ entries : List (Position × Symbol), t.resolutions =
    entries.foldl (fun table entry => table.record entry.1 entry.2) s.resolutions

variable {s t u : Analysis}

theorem NotedUpTo.refl (s : Analysis) : s.NotedUpTo s :=
  ⟨List.prefix_rfl, [], rfl⟩

theorem NotedUpTo.trans (h : s.NotedUpTo t) (h' : t.NotedUpTo u) : s.NotedUpTo u := by
  obtain ⟨herrors, entries, hentries⟩ := h
  obtain ⟨herrors', entries', hentries'⟩ := h'
  refine ⟨herrors.trans herrors', entries ++ entries', ?_⟩
  rw [hentries', hentries, List.foldl_append]

/-- An analysis can go on from every state that it passes through. -/
theorem ready_of_mem_trail {calls : List Call} {call : Call}
    (h : s ∈ call.steps.trail (.after calls)) : s.Ready := by
  obtain ⟨-, htrail⟩ := call.keeps_steps _ (framed_after calls)
  obtain ⟨k, hk, hframed⟩ := htrail s h
  obtain ⟨d, rfl⟩ := Nat.exists_eq_add_of_le' hk
  exact ⟨d, hframed⟩

end Analysis

namespace Resolve

variable {α β : Type} {R : ScopeStack Symbol → ScopeStack Symbol → Prop} {P Q : α → Prop}
  {x : Resolve α}

/-- Whatever some steps come to from a state with an open scope, they change the scopes in a certain
way only, and apart from that only report and record; and if they come to a value, it has a
property. -/
def Spares (R : ScopeStack Symbol → ScopeStack Symbol → Prop) (Q : α → Prop) (x : Resolve α) :
    Prop :=
  ∀ s : Analysis, s.scopes.frames ≠ [] → R s.scopes (x.exec s).2.scopes ∧
    s.NotedUpTo (x.exec s).2 ∧ ∀ a, (x.exec s).1 = .ok a → Q a

/-! ## Putting steps together -/

namespace Spares

theorem pure (hR : ScopeStack.Change R) {a : α} (h : Q a) : Spares R Q (pure a) := by
  intro s hs
  refine ⟨hR.refl _ hs, .refl s, fun b hb => ?_⟩
  cases hb
  exact h

theorem bind {S : β → Prop} {k : α → Resolve β} (hR : ScopeStack.Change R) (hx : Spares R P x)
    (hk : ∀ a, P a → Spares R S (k a)) : Spares R S (x >>= k) := by
  intro s hs
  obtain ⟨hscopes, hnotes, hvalue⟩ := hx s hs
  rw [exec_bind]
  generalize x.exec s = result at hscopes hnotes hvalue
  obtain ⟨value, s'⟩ := result
  cases value with
  | error error => exact ⟨hscopes, hnotes, fun b hb => by cases hb⟩
  | ok a =>
      obtain ⟨hscopes', hnotes', hvalue'⟩ := hk a (hvalue a rfl) s' (hR.opened _ _ hs hscopes)
      exact ⟨hR.trans _ _ _ hscopes hscopes', hnotes.trans hnotes', hvalue'⟩

theorem of_eq (hR : ScopeStack.Change R) (h : Spares Eq Q x) : Spares R Q x := by
  intro s hs
  obtain ⟨hscopes, hrest⟩ := h s hs
  refine ⟨?_, hrest⟩
  rw [← hscopes]
  exact hR.refl _ hs

theorem of_gains {name : String} (h : Spares (ScopeStack.Gains name) Q x) :
    Spares ScopeStack.SameOuter Q x := by
  intro s hs
  obtain ⟨hscopes, hrest⟩ := h s hs
  exact ⟨hscopes.sameOuter hs, hrest⟩

theorem state : Spares Eq (fun _ => True) state :=
  fun s _ => ⟨rfl, .refl s, fun _ _ => trivial⟩

theorem ofExcept {result : Except ScopeError α} : Spares Eq (fun _ => True) (ofExcept result) := by
  intro s _
  rw [exec_ofExcept]
  exact ⟨rfl, .refl s, fun _ _ => trivial⟩

theorem stop {error : ScopeError} : Spares Eq Q (.stop error) :=
  fun s _ => ⟨rfl, .refl s, fun _ h => by cases h⟩

theorem report {error : SemanticError} : Spares Eq (fun _ => True) (report error) :=
  fun _ _ => ⟨rfl, ⟨List.prefix_append _ _, [], rfl⟩, fun _ _ => trivial⟩

theorem record {pos : Position} {symbol : Symbol} :
    Spares Eq (fun _ => True) (record pos symbol) :=
  fun _ _ => ⟨rfl, ⟨List.prefix_rfl, [(pos, symbol)], rfl⟩, fun _ _ => trivial⟩

/-- What steps do to the stack as a table they do to the scopes. -/
theorem onScopes {name : String} {step : ScopeStack Symbol → Resolve (ScopeStack Symbol)}
    (h : ∀ table, Spares Eq (table.Gains name) (step table)) :
    Spares (ScopeStack.Gains name) (fun _ => True) (onScopes step) := by
  intro s hs
  obtain ⟨hscopes, hnotes, hvalue⟩ := h s.scopes s hs
  have hexec : (Resolve.onScopes step).exec s = (step s.scopes >>= setScopes).exec s := rfl
  rw [hexec, exec_bind]
  generalize (step s.scopes).exec s = result at hscopes hnotes hvalue
  obtain ⟨value, s'⟩ := result
  cases value with
  | error error => exact ⟨hscopes ▸ .nothing, hnotes, fun _ _ => trivial⟩
  | ok table => exact ⟨hvalue table rfl, ⟨hnotes.errors, hnotes.resolutions⟩, fun _ _ => trivial⟩

/-- What steps do to a scope of their own is gone with it. -/
theorem inScope {step : Resolve Unit} (h : Spares ScopeStack.SameOuter (fun _ => True) step) :
    Spares Eq (fun _ => True) (inScope step) := by
  intro s hs
  let inner : Analysis := { s with scopes := s.scopes.push }
  obtain ⟨hscopes, hnotes, -⟩ := h inner (List.cons_ne_nil _ _)
  have hclose := exec_close hscopes.pop
  have hexec : (Resolve.inScope step).exec s =
      ((step.exec inner).1, { (step.exec inner).2 with scopes := s.scopes }) := by
    change (step.ensuring (Resolve.onScopes fun scopes => Resolve.ofExcept scopes.pop)).exec inner
      = _
    rw [exec_ensuring]
    generalize step.exec inner = result at hclose
    obtain ⟨value, s'⟩ := result
    cases value with
    | error error => exact congrArg (fun t => (Except.error error, t)) (congrArg Prod.snd hclose)
    | ok _ => exact (exec_bind_of_ok hclose).trans rfl
  rw [hexec]
  exact ⟨rfl, ⟨hnotes.errors, hnotes.resolutions⟩, fun _ _ => trivial⟩

theorem forM {f : α → Resolve Unit} (hR : ScopeStack.Change R)
    (h : ∀ a, Spares R (fun _ => True) (f a)) (as : List α) :
    Spares R (fun _ => True) (as.forM f) := by
  induction as with
  | nil => exact pure hR trivial
  | cons a as ih => exact (h a).bind hR fun _ _ => ih

theorem lookup {name : String} : Spares Eq (fun _ => True) (lookup name) :=
  state.bind .eq fun _ _ => ofExcept

theorem foundOr {error : SemanticError} {found : Option Symbol} :
    Spares Eq (fun _ => True) (foundOr error found) := by
  cases found with
  | some symbol => exact pure .eq trivial
  | none => exact report.bind .eq fun _ _ => pure .eq trivial

theorem discard (h : Spares Eq P x) : Spares Eq (fun _ => True) (discard x) :=
  h.bind .eq fun _ _ => pure .eq trivial

theorem declareIn {table : ScopeStack Symbol} {name : Ident} {symbol : Symbol} :
    Spares Eq (fun table? => ∀ t ∈ table?, table.Gains name.name t)
      (declareIn table name symbol) := by
  rw [Resolve.declareIn]
  split
  · rename_i table' hdeclare
    refine pure .eq fun t ht => ?_
    obtain rfl : table' = t := Option.some.inj ht
    exact ScopeStack.gains_of_declare hdeclare
  · exact report.bind .eq fun _ _ => pure .eq fun _ ht => by cases ht
  · exact stop

theorem bindIn {table : ScopeStack Symbol} {name : Ident} {symbol : Symbol} :
    Spares Eq (table.Gains name.name) (bindIn table name symbol) := by
  refine declareIn.bind .eq fun table? htable => ?_
  cases table? with
  | some table' => exact record.bind .eq fun _ _ => pure .eq (htable table' rfl)
  | none => exact pure .eq .nothing

end Spares

/-! ## Expressions -/

theorem spares_useName (id : Ident) : Spares Eq (fun _ => True) (useName id) :=
  Spares.lookup.bind .eq fun _ _ => Spares.foundOr.bind .eq fun _ _ =>
    Spares.record.bind .eq fun _ _ => .pure .eq trivial

theorem spares_useField (pos : Position) (base : Symbol) (field : Ident) :
    Spares Eq (fun _ => True) (useField pos base field) := by
  have hfield : Spares Eq (fun _ => True) (lookupField base field.name) := by
    rw [lookupField]
    split
    · exact .ofExcept
    · exact .pure .eq trivial
  rw [useField]
  split
  · exact .foundOr
  · exact hfield.bind .eq fun _ _ => Spares.foundOr.bind .eq fun _ _ =>
      Spares.record.bind .eq fun _ _ => .pure .eq trivial

mutual

theorem spares_expr : ∀ e : Expr, Spares Eq (fun _ => True) (expr e)
  | .int .. | .str .. | .bool .. => .pure .eq trivial
  | .id _ id => spares_useName id
  | .dot _ base field =>
    (spares_expr base).bind .eq fun symbol _ => spares_useField base.pos symbol field
  | .assign _ lhs rhs | .binary _ _ lhs rhs =>
    (spares_expr rhs).bind .eq fun _ _ => spares_expr lhs
  | .call _ callee args => (spares_exprs args).bind .eq fun _ _ => spares_useName callee
  | .unary _ _ operand => spares_expr operand

theorem spares_exprs : ∀ es : List Expr, Spares Eq (fun _ => True) (exprs es)
  | [] => .pure .eq trivial
  | e :: es => (spares_expr e).bind .eq fun _ _ => spares_exprs es

end

/-! ## Declarations of names -/

theorem spares_symbol? (role : Role) (type : TypeSpec) :
    Spares Eq (fun _ => True) (symbol? role type) := by
  have hfields (name : Ident) : Spares Eq (fun _ => True) (structFields? name) := by
    refine Spares.lookup.bind .eq fun found _ => ?_
    split
    · exact Spares.record.bind .eq fun _ _ => .pure .eq trivial
    · exact Spares.report.bind .eq fun _ _ => .pure .eq trivial
  rw [symbol?]
  split
  · exact (hfields _).bind .eq fun _ _ => .pure .eq trivial
  · exact .pure .eq trivial

theorem spares_varDeclIn (table : ScopeStack Symbol) (decl : VarDecl) :
    Spares Eq (table.Gains decl.name.name) (varDeclIn table decl) := by
  rw [varDeclIn]
  split
  · exact Spares.report.bind .eq fun _ _ => .pure .eq .nothing
  · refine Spares.ofExcept.bind .eq fun found _ => ?_
    split
    · exact .pure .eq .nothing
    · refine (spares_symbol? .variable decl.type).bind .eq fun symbol? _ => ?_
      cases symbol? with
      | some symbol => exact .bindIn
      | none => exact .pure .eq .nothing

theorem spares_varDecl (decl : VarDecl) :
    Spares (ScopeStack.Gains decl.name.name) (fun _ => True) (varDecl decl) :=
  .onScopes fun table => spares_varDeclIn table decl

theorem spares_formal (decl : VarDecl) :
    Spares (ScopeStack.Gains decl.name.name) (fun _ => True) (formal decl) := by
  rw [formal]
  split
  · exact Spares.report.of_eq .gains
  · refine ((spares_symbol? .formal decl.type).of_eq .gains).bind .gains fun symbol? _ => ?_
    cases symbol? with
    | some symbol => exact .onScopes fun _ => .bindIn
    | none => exact .pure .gains trivial

/-! ## Statements and blocks -/

mutual

theorem spares_stmt : ∀ st : Stmt, Spares Eq (fun _ => True) (stmt st)
  | .act _ e => (spares_expr e).discard
  | .ifThen cond body | .loop _ cond body =>
    (spares_expr cond).bind .eq fun _ _ => .inScope (spares_block body)
  | .ifElse cond thenBlock elseBlock => by
      have helse : Spares Eq (fun _ => True) (inScope (block elseBlock)) :=
        .inScope (spares_block elseBlock)
      have hthen : Spares Eq (fun _ => True) (inScope (block thenBlock)) :=
        .inScope (spares_block thenBlock)
      exact (spares_expr cond).bind .eq fun _ _ => hthen.bind .eq fun _ _ => helse
  | .ret none => .pure .eq trivial
  | .ret (some e) => (spares_expr e).discard

theorem spares_block : ∀ b : Block, Spares ScopeStack.SameOuter (fun _ => True) (block b)
  | .mk decls body => by
      have hdecls : Spares ScopeStack.SameOuter (fun _ => True) (decls.forM varDecl) :=
        .forM .sameOuter (fun decl => (spares_varDecl decl).of_gains) decls
      exact hdecls.bind .sameOuter fun _ _ => (spares_stmts body).of_eq .sameOuter

theorem spares_stmts : ∀ ss : List Stmt, Spares Eq (fun _ => True) (stmts ss)
  | [] => .pure .eq trivial
  | st :: rest => (spares_stmt st).bind .eq fun _ _ => spares_stmts rest

end

theorem spares_fnDecl (decl : FnDecl) :
    Spares (ScopeStack.Gains decl.name.name) (fun _ => True) (fnDecl decl) := by
  have hname : Spares (ScopeStack.Gains decl.name.name) (fun _ => True)
      (onScopes (bindIn · decl.name decl.symbol)) :=
    .onScopes fun _ => .bindIn
  have hformals : Spares ScopeStack.SameOuter (fun _ => True) (decl.formals.forM formal) :=
    .forM .sameOuter (fun formal => (spares_formal formal).of_gains) decl.formals
  have hinside : Spares ScopeStack.SameOuter (fun _ => True)
      (do decl.formals.forM formal; block decl.body) :=
    hformals.bind .sameOuter fun _ _ => spares_block decl.body
  exact hname.bind .gains fun _ _ => (Spares.inScope hinside).of_eq .gains

/-! ## All that is changed -/

/-- From a state some steps change the scopes in a certain way only, apart from that they only
report and record, and they come to their end if the analysis can go on from the state. -/
structure LeavesAlone (R : ScopeStack Symbol → ScopeStack Symbol → Prop) (x : Resolve α)
    (s : Analysis) : Prop where
  scopes : R s.scopes (x.exec s).2.scopes
  notes : s.NotedUpTo (x.exec s).2
  ends : s.Ready → ∃ a, (x.exec s).1 = .ok a

theorem Spares.leavesAlone {s : Analysis} (h : Spares R Q x)
    (hkeeps : ∀ d, Keeps (d + 1) P x) (hs : s.scopes.frames ≠ []) : LeavesAlone R x s where
  scopes := (h s hs).1
  notes := (h s hs).2.1
  ends := fun ⟨d, hframed⟩ => by
    obtain ⟨⟨a, s', hexec, -⟩, -⟩ := hkeeps d s hframed
    exact ⟨a, congrArg Prod.fst hexec⟩

/-- Statements and expressions do not disturb the scopes: from every state with an open scope
they leave all scopes with all that is bound in them.  A variable or a function adds at most its own
name to the innermost scope, whatever is wrong inside of it.  All else that is changed is that
misuses are reported and meanings recorded.  From every state that an analysis passes through they
come to their end. -/
theorem scopes_undisturbed :
    (∀ (calls : List Call) (call : Call), ∀ s ∈ call.steps.trail (.after calls), s.Ready) ∧
    ∀ s : Analysis, s.scopes.frames ≠ [] →
      (∀ st : Stmt, LeavesAlone Eq (stmt st) s) ∧
      (∀ e : Expr, LeavesAlone Eq (expr e) s) ∧
      (∀ decl : VarDecl, LeavesAlone (ScopeStack.Gains decl.name.name) (varDecl decl) s) ∧
      ∀ decl : FnDecl, LeavesAlone (ScopeStack.Gains decl.name.name) (fnDecl decl) s := by
  refine ⟨fun calls call s => Analysis.ready_of_mem_trail, fun s hs => ⟨fun st => ?_, fun e => ?_,
    fun decl => ?_, fun decl => ?_⟩⟩
  · exact (spares_stmt st).leavesAlone (fun _ => keeps_stmt st) hs
  · exact (spares_expr e).leavesAlone (fun _ => keeps_expr e) hs
  · exact (spares_varDecl decl).leavesAlone (fun _ => keeps_varDecl decl) hs
  · exact (spares_fnDecl decl).leavesAlone (fun _ => keeps_fnDecl decl) hs

/-- A loop in the body of a function declares a name once more that is bound at the top, another
name, and uses a third one that nothing binds.  The analysis passes through the state in which the
body begins, and from there the loop comes to its end with the scopes as they were; a variable that
is declared in place of the loop is added to the scope of the function alone. -/
theorem scopes_undisturbed_in_loop :
    let loop : Stmt := .loop .whileLoop (.id ⟨2, 25⟩ ⟨"a", ⟨2, 25⟩⟩)
      (.mk [⟨.bool, ⟨"x", ⟨2, 35⟩⟩⟩, ⟨.int, ⟨"y", ⟨2, 42⟩⟩⟩]
        [.act .assign (.assign ⟨2, 45⟩ (.id ⟨2, 45⟩ ⟨"x", ⟨2, 45⟩⟩) (.id ⟨2, 49⟩ ⟨"z", ⟨2, 49⟩⟩))])
    let fn : FnDecl := ⟨.void, ⟨"f", ⟨2, 6⟩⟩, [⟨.bool, ⟨"a", ⟨2, 13⟩⟩⟩], .mk [] [loop]⟩
    let top : Frame Symbol := ⟨[("f", fn.symbol), ("x", .var .int none)]⟩
    let s : Analysis := ⟨⟨[⟨[("a", .param .bool none)]⟩, top]⟩, [],
      ⟨[(⟨1, 5⟩, .var .int none), (⟨2, 6⟩, fn.symbol), (⟨2, 13⟩, .param .bool none)]⟩⟩
    let decl : VarDecl := ⟨.bool, ⟨"x", ⟨2, 22⟩⟩⟩
    s ∈ (Call.program ⟨[.fn fn]⟩).steps.trail (.after [.program ⟨[.var ⟨.int, ⟨"x", ⟨1, 5⟩⟩⟩]⟩]) ∧
      s.Ready ∧
      (∃ s', (stmt loop).exec s = (.ok (), s') ∧ s'.scopes = s.scopes ∧
        s'.errors = [.undeclared "z" ⟨2, 49⟩] ∧
        s'.resolutions.get? ⟨2, 45⟩ = some (.var .bool none)) ∧
      ∃ s', (varDecl decl).exec s = (.ok (), s') ∧ s.scopes.Gains "x" s'.scopes ∧
        s'.scopes = ⟨[⟨[("x", .var .bool none), ("a", .param .bool none)]⟩, top]⟩ := by
  intro loop fn top s decl
  obtain ⟨hready, hleaves⟩ := scopes_undisturbed
  have hmem : s ∈ (Call.program ⟨[.fn fn]⟩).steps.trail
      (.after [.program ⟨[.var ⟨.int, ⟨"x", ⟨1, 5⟩⟩⟩]⟩]) :=
    List.mem_of_getElem? (i := 5) rfl
  have hs : s.Ready := hready _ _ s hmem
  obtain ⟨hstmt, -, hdecl, -⟩ := hleaves s (List.cons_ne_nil _ _)
  obtain ⟨_, hloopEnds⟩ := (hstmt loop).ends hs
  obtain ⟨_, hdeclEnds⟩ := (hdecl decl).ends hs
  refine ⟨hmem, hs, ⟨_, Prod.ext hloopEnds rfl, (hstmt loop).scopes.symm, rfl, rfl⟩, ?_⟩
  exact ⟨_, Prod.ext hdeclEnds rfl, (hdecl decl).scopes, rfl⟩

end Resolve

end NameCheck
