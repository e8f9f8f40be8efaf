import Mathlib.Logic.Relation
import NameCheck.Proofs.Resolve.Deletions

/-!
# The order of statements

A statement hands nothing on to the statements after it: what it declares is seen in its own blocks
only.  So statements of one block can change places.  The same is found at the same occurrences,
although it is found in another order.
-/

namespace NameCheck

/-! ## Changing places -/

/-- A block with the statements of one block in another order: its own, or those of a block inside
it. -/
inductive Block.Reorders : Block → Block → Prop where
  | here {decls : List VarDecl} {stmts stmts' : List Stmt} (h : stmts.Perm stmts') :
      Reorders (.mk decls stmts) (.mk decls stmts')
  | inside {decls : List VarDecl} {before after : List Stmt} {stmt stmt' : Stmt}
      {block block' : Block} (h : Reorders block block')
      (hstmt : stmt.Replaces block block' stmt') :
      Reorders (.mk decls (before ++ stmt :: after)) (.mk decls (before ++ stmt' :: after))

/-- A program with the statements of one block in another order. -/
inductive Program.Reorders : Program → Program → Prop where
  | inBody {before after : List Decl} {fn : FnDecl} {body : Block} (h : fn.body.Reorders body) :
      Reorders ⟨before ++ .fn fn :: after⟩ ⟨before ++ .fn { fn with body := body } :: after⟩

/-! ## Sites -/

section Sites

variable {env : Env} {block block' : Block} {p p' : Program}

theorem Stmt.sitesAll_eq_flatMap (env : Env) (stmts : List Stmt) :
    sitesAll env stmts = stmts.flatMap (Stmt.sites env) := by
  induction stmts with
  | nil => rfl
  | cons stmt stmts ih => rw [sitesAll, ih, List.flatMap_cons]

/-- Blocks whose statements change places have the same sites, in another order. -/
theorem Block.Reorders.perm_sites (h : block.Reorders block') (env : Env) :
    (block.sites env).Perm (block'.sites env) := by
  induction h generalizing env with
  | here h =>
      rw [sites, sites, Stmt.sitesAll_eq_flatMap, Stmt.sitesAll_eq_flatMap]
      exact (h.flatMap_right _).append_left _
  | @inside decls before after stmt stmt' block block' _ hstmt ih =>
      obtain ⟨front, back, hsites, hsites'⟩ := hstmt.exists_sites (env.declareAll .variable decls)
      have hinner := (ih (env.declareAll .variable decls).enter).append_left front
      rw [sites, sites, Stmt.sitesAll_append, Stmt.sitesAll_append, Stmt.sitesAll, Stmt.sitesAll,
        hsites, hsites']
      exact (((hinner.append_right back).append_right _).append_left _).append_left _

theorem FnDecl.perm_sites_of_body {fn : FnDecl} {body : Block} (h : fn.body.Reorders body)
    (env : Env) : (fn.sites env).Perm (FnDecl.sites env { fn with body := body }) :=
  (((h.perm_sites (fn.inside env)).append_left _).cons _).append_left _

/-- Programs whose statements change places have the same scopes at the top, and the same sites in
another order. -/
theorem Program.Reorders.perm_sites (h : p.Reorders p') :
    p.sites.Perm p'.sites ∧ p'.env = p.env := by
  cases h with
  | @inBody before after fn body h =>
      have hbody := FnDecl.perm_sites_of_body h (env ⟨before⟩)
      rw [sites, sites, Decl.sitesAll_append, Decl.sitesAll_append, Decl.sitesAll, Decl.sitesAll,
        env_append, env_append]
      exact ⟨(hbody.append_right _).append_left _, rfl⟩

theorem Program.perm_sites_of_reorders (h : Relation.ReflTransGen Program.Reorders p p') :
    p.sites.Perm p'.sites ∧ p'.env = p.env := by
  induction h with
  | refl => exact ⟨.refl _, rfl⟩
  | tail _ hstep ih =>
      obtain ⟨hsites, henv⟩ := hstep.perm_sites
      exact ⟨ih.1.trans hsites, henv.trans ih.2⟩

end Sites

/-! ## Meanings -/

namespace Resolutions

variable {p q : Position} {symbol other : Symbol} {entries entries' : List (Position × Symbol)}

theorem enter_of_first (h : ∀ entry ∈ entries.head?, p < entry.1) (symbol : Symbol) :
    enter p symbol entries = (p, symbol) :: entries := by
  cases entries with
  | nil => rfl
  | cons entry entries =>
      have hlt : p < entry.1 := h entry rfl
      have hne : entry.1 ≠ p := fun heq => Position.lt_irrefl p (heq ▸ hlt)
      rw [enter, if_neg (Position.lt_asymm hlt), if_neg hne]

/-- An entry behind a place stays behind it when something is entered behind the place. -/
theorem head?_enter (h : p < q) (hfirst : ∀ entry ∈ entries.head?, p < entry.1) :
    ∀ entry ∈ (enter q other entries).head?, p < entry.1 := by
  cases entries with
  | nil =>
      rintro entry ⟨⟩
      exact h
  | cons first entries =>
      have hlt : p < first.1 := hfirst first rfl
      rw [enter]
      split
      · rintro entry ⟨⟩
        exact hlt
      · split <;>
        · rintro entry ⟨⟩
          exact h

/-- What is entered at two places can be entered in either order. -/
theorem enter_comm (h : p < q) :
    enter q other (enter p symbol entries) = enter p symbol (enter q other entries) := by
  have hafter (rest : List (Position × Symbol)) :
      enter q other ((p, symbol) :: rest) = (p, symbol) :: enter q other rest := by
    rw [enter, if_pos h]
  induction entries with
  | nil =>
      have hfirst : ∀ entry ∈ (enter q other []).head?, p < entry.1 :=
        head?_enter h fun _ hnone => absurd hnone (Option.not_mem_none _)
      rw [enter_of_first hfirst, ← hafter]
      rfl
  | cons entry entries ih =>
      by_cases hlt : entry.1 < p
      · have hlt' : entry.1 < q := Position.lt_trans hlt h
        rw [enter, if_pos hlt, enter, if_pos hlt', ih, enter, if_pos hlt', enter, if_pos hlt]
      · by_cases heq : entry.1 = p
        · rw [enter, if_neg hlt, if_pos heq, hafter, enter, if_pos (heq ▸ h), enter, if_neg hlt,
            if_pos heq]
        · have hfirst : ∀ first ∈ (entry :: entries).head?, p < first.1 := by
            rintro first ⟨⟩
            by_contra hnot
            exact heq (Position.eq_of_not_lt hlt hnot)
          rw [enter_of_first hfirst, hafter, enter_of_first (head?_enter h hfirst)]

theorem record_comm (table : Resolutions) (h : p ≠ q) :
    (table.record p symbol).record q other = (table.record q other).record p symbol := by
  by_cases hlt : p < q
  · exact congrArg mk (enter_comm hlt)
  · have hlt' : q < p := by
      by_contra hnot
      exact h (Position.eq_of_not_lt hlt hnot)
    exact congrArg mk (enter_comm hlt').symm

/-- What is recorded at places of their own makes one table, in whichever order it is recorded. -/
theorem foldl_record_perm (h : entries.Perm entries') (hdistinct : (entries.map Prod.fst).Nodup)
    (table : Resolutions) :
    entries.foldl (fun table entry => table.record entry.1 entry.2) table =
      entries'.foldl (fun table entry => table.record entry.1 entry.2) table := by
  refine h.foldl_eq' (fun x hx y hy table => ?_) table
  by_cases hpos : x.1 = y.1
  · rw [List.inj_on_of_nodup_map hdistinct hx hy hpos]
  · exact record_comm table hpos

end Resolutions

/-- Sites that are about places of their own record at places of their own. -/
theorem Site.nodup_meanings {xs : List Site}
    (hdistinct : xs.Pairwise fun a b => a.ident.pos ≠ b.ident.pos) :
    ((xs.flatMap Site.meanings).map Prod.fst).Nodup := by
  induction xs with
  | nil => exact List.nodup_nil
  | cons x xs ih =>
      obtain ⟨hx, hxs⟩ := List.pairwise_cons.mp hdistinct
      have hne := Analysis.ne_of_mem_meanings fun y hy => (hx y hy).symm
      rw [List.flatMap_cons]
      rcases x.meanings_cases with hnone | ⟨symbol, hsome⟩
      · rw [hnone]
        exact ih hxs
      · rw [hsome]
        refine List.nodup_cons.mpr ⟨fun hmem => ?_, ih hxs⟩
        obtain ⟨entry, hentry, hpos⟩ := List.mem_map.mp hmem
        exact hne entry hentry hpos

/-- The order of statements does not matter to name resolution.  If the occurrences of names
stand at places of their own, statements can change places in any blocks of a program: every
occurrence keeps its meaning, the scopes at the end are the same, and the same misuses are reported,
in another order. -/
theorem Program.order_of_statements {p p' : Program}
    (hdistinct : ((p.occurrences.map Occurrence.ident).map Ident.pos).Nodup)
    (hreorders : Relation.ReflTransGen Reorders p p') :
    ∃ a a', p.analyze = .ok a ∧ p'.analyze = .ok a' ∧ a'.resolutions = a.resolutions ∧
      a'.scopes = a.scopes ∧ a.errors.Perm a'.errors := by
  obtain ⟨hsites, henv⟩ := perm_sites_of_reorders hreorders
  have hapart : p.sites.Pairwise fun a b => a.ident.pos ≠ b.ident.pos :=
    pairwise_sites_of_distinct (List.pairwise_map.mp hdistinct)
  have hmeanings : (p.sites.flatMap Site.meanings).Perm (p'.sites.flatMap Site.meanings) :=
    hsites.flatMap_right _
  refine ⟨p.lexical, p'.lexical, p.analyze_eq_lexical, p'.analyze_eq_lexical, ?_, ?_, ?_⟩
  · exact (Resolutions.foldl_record_perm hmeanings (Site.nodup_meanings hapart) .empty).symm
  · exact congrArg Env.stack henv
  · exact hsites.flatMap_right _

/-- The statements of a function change places, and so do those of a branch of one of them. -/
theorem Program.order_of_statements_in_branch :
    let assign : Stmt := .act .assign (.assign ⟨1, 22⟩ (.id ⟨1, 22⟩ ⟨"x", ⟨1, 22⟩⟩)
      (.id ⟨1, 24⟩ ⟨"b", ⟨1, 24⟩⟩))
    let call : Stmt := .act .call (.call ⟨1, 26⟩ ⟨"c", ⟨1, 26⟩⟩ [])
    let branch (stmts : List Stmt) : Stmt :=
      .ifThen (.id ⟨1, 13⟩ ⟨"a", ⟨1, 13⟩⟩) (.mk [⟨.int, ⟨"x", ⟨1, 20⟩⟩⟩] stmts)
    let last : Stmt := .ret (some (.id ⟨1, 38⟩ ⟨"d", ⟨1, 38⟩⟩))
    let program (stmts : List Stmt) : Program := ⟨[.fn ⟨.void, ⟨"f", ⟨1, 6⟩⟩, [], .mk [] stmts⟩]⟩
    ∃ a a', (program [branch [assign, call], last]).analyze = .ok a ∧
      (program [last, branch [call, assign]]).analyze = .ok a' ∧
      a'.resolutions = a.resolutions ∧ a'.scopes = a.scopes ∧
      a.errors = [.undeclared "a" ⟨1, 13⟩, .undeclared "b" ⟨1, 24⟩, .undeclared "c" ⟨1, 26⟩,
        .undeclared "d" ⟨1, 38⟩] ∧
      a'.errors = [.undeclared "d" ⟨1, 38⟩, .undeclared "a" ⟨1, 13⟩, .undeclared "c" ⟨1, 26⟩,
        .undeclared "b" ⟨1, 24⟩] := by
  intro assign call branch last program
  have hdistinct : (((program [branch [assign, call], last]).occurrences.map
      Occurrence.ident).map Ident.pos).Nodup := by decide
  have hinner : (Block.mk [] [branch [assign, call], last]).Reorders
      (.mk [] [branch [call, assign], last]) :=
    @Block.Reorders.inside [] [] [last] _ _ _ _ (.here (.swap call assign [])) .ifThen
  have houter : (Block.mk [] [branch [call, assign], last]).Reorders
      (.mk [] [last, branch [call, assign]]) := .here (.swap last (branch [call, assign]) [])
  have hreorders : Relation.ReflTransGen Reorders (program [branch [assign, call], last])
      (program [last, branch [call, assign]]) :=
    .head (@Reorders.inBody [] [] ⟨.void, ⟨"f", ⟨1, 6⟩⟩, [], _⟩ _ hinner)
      (.single (@Reorders.inBody [] [] ⟨.void, ⟨"f", ⟨1, 6⟩⟩, [], _⟩ _ houter))
  obtain ⟨a, a', ha, ha', hresolutions, hscopes, -⟩ := order_of_statements hdistinct hreorders
  have hlexical : a = (program [branch [assign, call], last]).lexical :=
    Except.ok.inj (ha.symm.trans (analyze_eq_lexical _))
  have hlexical' : a' = (program [last, branch [call, assign]]).lexical :=
    Except.ok.inj (ha'.symm.trans (analyze_eq_lexical _))
  refine ⟨a, a', ha, ha', hresolutions, hscopes, ?_, ?_⟩
  · rw [hlexical]
    rfl
  · rw [hlexical']
    rfl

end NameCheck
