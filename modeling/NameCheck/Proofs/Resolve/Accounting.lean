import Mathlib.Data.List.Nodup
import NameCheck.Proofs.Check
import NameCheck.Proofs.Resolve.Coverage

/-!
# Every occurrence of a name is accounted for

Meanings are recorded by place only, and misuses are reported in one list.  Because no two
occurrences share a place, what stands there can be told apart: each occurrence has at most one
meaning and at most one report, and which of them follows from what the occurrence is.
-/

namespace NameCheck

/-! ## Notes -/

/-- Whether a misuse is one of the name that occurs at a place.  A selection from what is no
instance of a struct is none: it is reported with the base, and without a name. -/
def SemanticError.blames (error : SemanticError) (id : Ident) : Bool :=
  error.name?.isSome && decide (error.pos = id.pos)

/-- What an analysis notes at an occurrence of a name: the meaning that it records there, if any,
and all misuses of the name that it reports there. -/
def Analysis.notes (a : Analysis) (id : Ident) : Option Symbol × List SemanticError :=
  (a.resolutions.get? id.pos, a.errors.filter (·.blames id))

namespace Site

/-- What is noted at the occurrence that a site is about. -/
def notes (x : Site) : Option Symbol × List SemanticError :=
  (x.meanings.head?.map Prod.snd, x.errors.filter (·.blames x.ident))

theorem meanings_cases (x : Site) :
    x.meanings = [] ∨ ∃ symbol, x.meanings = [(x.ident.pos, symbol)] := by
  cases x with
  | use id found => exact Or.inr ⟨found.getD .undefined, rfl⟩
  | member basePos base field =>
      rw [meanings]
      split
      · exact Or.inl rfl
      · exact Or.inr ⟨_, rfl⟩
  | typeName name found =>
      cases found with
      | none => exact Or.inl rfl
      | some fields => exact Or.inr ⟨.structDecl fields, rfl⟩
  | declared name verdict =>
      cases verdict with
      | bound symbol => exact Or.inr ⟨symbol, rfl⟩
      | _ => exact Or.inl rfl
  | passedOver name => exact Or.inl rfl

/-- A misuse of a name is reported at the occurrence that its site is about. -/
theorem named_of_mem_errors {x : Site} {error : SemanticError} (h : error ∈ x.errors)
    (hn : error.name?.isSome = true) :
    error.name? = some x.ident.name ∧ error.pos = x.ident.pos := by
  cases x with
  | use id found =>
      cases found with
      | none =>
          obtain rfl := List.mem_singleton.mp h
          exact ⟨rfl, rfl⟩
      | some symbol => cases h
  | member basePos base field =>
      rw [errors] at h
      split at h
      · obtain rfl := List.mem_singleton.mp h
        cases hn
      · obtain rfl := List.mem_singleton.mp h
        exact ⟨rfl, rfl⟩
      · cases h
  | typeName name found =>
      cases found with
      | none =>
          obtain rfl := List.mem_singleton.mp h
          exact ⟨rfl, rfl⟩
      | some fields => cases h
  | declared name verdict =>
      cases verdict with
      | void | taken =>
          obtain rfl := List.mem_singleton.mp h
          exact ⟨rfl, rfl⟩
      | _ => cases h
  | passedOver name => cases h

/-- A site says nothing of other places. -/
theorem filter_errors_of_ne {x : Site} {id : Ident} (h : x.ident.pos ≠ id.pos) :
    x.errors.filter (·.blames id) = [] := by
  apply List.filter_eq_nil_iff.mpr
  intro error herror hblames
  simp only [SemanticError.blames, Bool.and_eq_true, decide_eq_true_eq] at hblames
  exact h ((named_of_mem_errors herror hblames.1).2.symm.trans hblames.2)

end Site

/-- After several records there stands at a position what was recorded there last, or else what
stood there before. -/
theorem Resolutions.get?_foldl_record (entries : List (Position × Symbol)) (table : Resolutions)
    (p : Position) :
    (entries.foldl (fun table entry => table.record entry.1 entry.2) table).get? p =
      (entries.reverse.lookup p).or (table.get? p) := by
  induction entries generalizing table with
  | nil => rfl
  | cons entry entries ih =>
      rw [List.foldl_cons, ih, get?_record, List.reverse_cons, List.lookup_append, Option.or_assoc,
        List.lookup_cons]
      by_cases hp : p = entry.1
      · rw [if_pos hp, hp, beq_self_eq_true]
        rfl
      · rw [if_neg hp, beq_false_of_ne hp]
        rfl

/-- What is recorded at other places leaves a place alone. -/
theorem Resolutions.get?_foldl_record_of_ne {entries : List (Position × Symbol)}
    {table : Resolutions} {p : Position} (h : ∀ entry ∈ entries, entry.1 ≠ p) :
    (entries.foldl (fun table entry => table.record entry.1 entry.2) table).get? p =
      table.get? p := by
  have hnone : entries.reverse.lookup p = none := List.lookup_eq_none_iff.mpr fun entry hentry =>
    bne_iff_ne.mpr (h entry (List.mem_reverse.mp hentry)).symm
  rw [get?_foldl_record, hnone, Option.none_or]

namespace Analysis

theorem add_resolutions (xs : List Site) (env : Env) :
    (new.add xs env).resolutions = (xs.flatMap Site.meanings).foldl
      (fun table entry => table.record entry.1 entry.2) .empty := rfl

theorem add_errors (xs : List Site) (env : Env) :
    (new.add xs env).errors = xs.flatMap Site.errors := rfl

theorem ne_of_mem_meanings {xs : List Site} {p : Position} (h : ∀ x ∈ xs, x.ident.pos ≠ p) :
    ∀ entry ∈ xs.flatMap Site.meanings, entry.1 ≠ p := by
  intro entry hentry
  obtain ⟨x, hx, hmem⟩ := List.mem_flatMap.mp hentry
  rcases x.meanings_cases with hnone | ⟨symbol, hsome⟩
  · rw [hnone] at hmem
    cases hmem
  · rw [hsome] at hmem
    obtain rfl := List.mem_singleton.mp hmem
    exact h x hx

theorem filter_errors_flatMap_of_ne {xs : List Site} {id : Ident}
    (h : ∀ x ∈ xs, x.ident.pos ≠ id.pos) :
    (xs.flatMap Site.errors).filter (·.blames id) = [] := by
  induction xs with
  | nil => rfl
  | cons x xs ih =>
      rw [List.flatMap_cons, List.filter_append, Site.filter_errors_of_ne (h x List.mem_cons_self),
        ih fun y hy => h y (List.mem_cons_of_mem _ hy)]
      rfl

section OneSite

variable {before after : List Site} {x : Site} {env : Env}
  (hb : ∀ y ∈ before, y.ident.pos ≠ x.ident.pos) (ha : ∀ y ∈ after, y.ident.pos ≠ x.ident.pos)
include hb ha

theorem get?_add : (new.add (before ++ x :: after) env).resolutions.get? x.ident.pos =
    x.meanings.head?.map Prod.snd := by
  rw [add_resolutions, List.flatMap_append, List.flatMap_cons, List.foldl_append,
    List.foldl_append, Resolutions.get?_foldl_record_of_ne (ne_of_mem_meanings ha)]
  rcases x.meanings_cases with hnone | ⟨symbol, hsome⟩
  · rw [hnone]
    exact Resolutions.get?_foldl_record_of_ne (ne_of_mem_meanings hb)
  · rw [hsome]
    exact (Resolutions.get?_record _ _ _ _).trans (if_pos rfl)

theorem filter_errors_add :
    (new.add (before ++ x :: after) env).errors.filter (·.blames x.ident) =
      x.errors.filter (·.blames x.ident) := by
  rw [add_errors, List.flatMap_append, List.flatMap_cons, List.filter_append,
    List.filter_append, filter_errors_flatMap_of_ne hb, filter_errors_flatMap_of_ne ha,
    List.nil_append, List.append_nil]

end OneSite

/-- If the places of sites differ, what is noted at an occurrence is what its site says. -/
theorem notes_add {xs : List Site} {env : Env} {x : Site}
    (hdistinct : xs.Pairwise fun a b => a.ident.pos ≠ b.ident.pos) (hx : x ∈ xs) :
    (new.add xs env).notes x.ident = x.notes := by
  obtain ⟨before, after, rfl⟩ := List.append_of_mem hx
  obtain ⟨-, hcons, hbefore⟩ := List.pairwise_append.mp hdistinct
  obtain ⟨hafter, -⟩ := List.pairwise_cons.mp hcons
  have hb : ∀ y ∈ before, y.ident.pos ≠ x.ident.pos :=
    fun y hy => hbefore y hy x List.mem_cons_self
  have ha : ∀ y ∈ after, y.ident.pos ≠ x.ident.pos := fun y hy => (hafter y hy).symm
  rw [notes, get?_add hb ha, filter_errors_add hb ha, Site.notes]

end Analysis

/-! ## What becomes of an occurrence -/

/-- The occurrence whose meaning an expression has. -/
def Expr.target? : Expr → Option Ident
  | .int .. | .str .. | .bool .. => none
  | .id _ name | .dot _ _ name | .call _ name _ => some name
  | .assign _ lhs _ | .binary _ _ lhs _ => lhs.target?
  | .unary _ _ operand => operand.target?

/-- What an expression stands for, going by the meanings that were recorded. -/
def Expr.recorded (table : Resolutions) (e : Expr) : Symbol :=
  (e.target?.bind fun id => table.get? id.pos).getD .undefined

/-- A declared name is bound: a meaning is noted there, and no misuse. -/
def Analysis.Binds (a : Analysis) (xs : List Site) (name : Ident) : Prop :=
  ∃ symbol, .declared name (.bound symbol) ∈ xs ∧ symbol.isUndefined = false ∧
    a.notes name = (some symbol, [])

/-- A declared name is not bound: no meaning is noted there, and certain misuses are. -/
def Analysis.Rejects (a : Analysis) (xs : List Site) (name : Ident)
    (misuses : List SemanticError) : Prop :=
  (∀ symbol, .declared name (.bound symbol) ∉ xs) ∧ a.notes name = (none, misuses)

/-- What becomes of an occurrence in an analysis whose sites are `xs`.  A use has a meaning, which
is undefined if and only if the name is reported as undeclared.  So has a field of an instance,
while one of anything else has none, and its base is reported.  A declared name is bound or not;
if not, it is reported as void or as taken, or its type is reported, or it is passed over.  The
name of a type means a struct or is reported, unless the declaration is passed over; that of a
type that is returned is not looked up. -/
def Occurrence.Accounted (xs : List Site) (a : Analysis) : Occurrence → Prop
  | .use id => ∃ symbol, a.notes id =
      (some symbol, if symbol.isUndefined then [.undeclared id.name id.pos] else [])
  | .member base field =>
    match (base.recorded a.resolutions).structName? with
    | some _ => ∃ symbol, a.notes field =
        (some symbol, if symbol.isUndefined then [.invalidStructField field.name field.pos] else [])
    | none => a.notes field = (none, []) ∧ .dotAccessOfNonStruct base.pos ∈ a.errors
  | .typeName owner decl name =>
    (∃ fields, a.notes name = (some (.structDecl fields), [])) ∨
      a.notes name = (none, [.invalidStructTypeName name.name name.pos]) ∨
      a.notes name = (none, []) ∧ owner.PassesOver xs decl
  | .varName owner decl =>
    a.Binds xs decl.name ∨
      a.Rejects xs decl.name [.nonFunctionVoid decl.name.name decl.name.pos] ∨
      a.Rejects xs decl.name [.multiplyDeclared decl.name.name decl.name.pos] ∨
      a.Rejects xs decl.name [] ∧
        ((∃ name, decl.type = .struct name ∧
            a.notes name = (none, [.invalidStructTypeName name.name name.pos])) ∨
          owner.PassesOver xs decl)
  | .topName name =>
    a.Binds xs name ∨ a.Rejects xs name [.multiplyDeclared name.name name.pos]
  | .returnType name => a.notes name = (none, [])

section Accounts

variable {xs : List Site} {env : Env} {a : Analysis} {o : Occurrence} {x : Site} {e : Expr}
  {id name : Ident}

theorem Expr.recorded_of_site (hnotes : ∀ x ∈ xs, a.notes x.ident = x.notes) (hx : x ∈ xs)
    (ht : e.target? = some x.ident) :
    e.recorded a.resolutions = x.notes.1.getD .undefined := by
  have hget : a.resolutions.get? x.ident.pos = x.notes.1 := congrArg Prod.fst (hnotes x hx)
  rw [recorded, ht, Option.bind_some, hget]

/-- Going by what is noted at its sites, an expression stands for its meaning. -/
theorem Expr.recorded_eq_meaning (hnotes : ∀ x ∈ xs, a.notes x.ident = x.notes) :
    ∀ e : Expr, e.sites env ⊆ xs → e.recorded a.resolutions = e.meaning env
  | .int .., _ | .str .., _ | .bool .., _ => rfl
  | .id _ _, hsub => recorded_of_site hnotes (hsub List.mem_cons_self) rfl
  | .dot _ base field, hsub => by
      have hsite := hsub (List.mem_append_right _ List.mem_cons_self)
      rw [recorded_of_site hnotes hsite rfl, meaning, Site.notes, Site.meanings]
      cases (base.meaning env).structName? <;> rfl
  | .call _ _ _, hsub =>
    recorded_of_site hnotes (hsub (List.mem_append_right _ List.mem_cons_self)) rfl
  | .assign _ lhs _, hsub | .binary _ _ lhs _, hsub =>
    lhs.recorded_eq_meaning hnotes (List.append_subset.mp hsub).2
  | .unary _ _ operand, hsub => operand.recorded_eq_meaning hnotes hsub

theorem SemanticError.filter_blames_self {error : SemanticError}
    (hn : error.name?.isSome = true) (hp : error.pos = id.pos) :
    [error].filter (·.blames id) = [error] := by
  have hblames : error.blames id = true := by
    rw [blames, hn, Bool.true_and]
    exact decide_eq_true hp
  rw [List.filter_cons, if_pos hblames, List.filter_nil]

namespace Site

theorem notes_undeclared : (Site.use id none).notes =
    (some .undefined, [.undeclared id.name id.pos]) :=
  congrArg (some Symbol.undefined, ·) (SemanticError.filter_blames_self rfl rfl)

theorem notes_unknownType : (Site.typeName name none).notes =
    (none, [.invalidStructTypeName name.name name.pos]) :=
  congrArg (none, ·) (SemanticError.filter_blames_self rfl rfl)

theorem notes_void : (Site.declared name .void).notes =
    (none, [.nonFunctionVoid name.name name.pos]) :=
  congrArg (none, ·) (SemanticError.filter_blames_self rfl rfl)

theorem notes_taken : (Site.declared name .taken).notes =
    (none, [.multiplyDeclared name.name name.pos]) :=
  congrArg (none, ·) (SemanticError.filter_blames_self rfl rfl)

end Site

/-- What is noted at a name tells that it is not bound. -/
theorem Analysis.rejects_of_notes (hnotes : ∀ x ∈ xs, a.notes x.ident = x.notes)
    {misuses : List SemanticError} (h : a.notes name = (none, misuses)) :
    a.Rejects xs name misuses := by
  refine ⟨fun symbol hsite => ?_, h⟩
  have hbound : a.notes name = (some symbol, []) := hnotes _ hsite
  rw [h] at hbound
  cases hbound

namespace Settles

/-! ## Sites account for occurrences -/

variable (hnotes : ∀ x ∈ xs, a.notes x.ident = x.notes)

theorem accounted_use {found : Option Symbol} (hnote : a.notes id = (Site.use id found).notes)
    (hknown : ∀ symbol ∈ found, symbol.Known) : (Occurrence.use id).Accounted xs a := by
  cases found with
  | none => exact ⟨.undefined, hnote.trans Site.notes_undeclared⟩
  | some symbol =>
      refine ⟨symbol, hnote.trans ?_⟩
      rw [(hknown symbol rfl).defined]
      rfl

theorem accounted_member {base : Expr} {field : Ident} {symbol : Symbol}
    (hbase : base.recorded a.resolutions = symbol)
    (hnote : a.notes field = (Site.member base.pos symbol field).notes)
    (herrors : ∀ error ∈ (Site.member base.pos symbol field).errors, error ∈ a.errors)
    (hknown : ∀ found ∈ symbol.member field.name, found.Known) :
    (Occurrence.member base field).Accounted xs a := by
  rw [Occurrence.Accounted, hbase, hnote]
  rw [Site.errors] at herrors
  rw [Site.notes, Site.meanings, Site.errors]
  cases hs : symbol.structName? with
  | none =>
      rw [hs] at herrors
      exact ⟨rfl, herrors _ List.mem_cons_self⟩
  | some struct =>
      cases hm : symbol.member field.name with
      | none =>
          refine ⟨.undefined, ?_⟩
          exact congrArg (some Symbol.undefined, ·) (SemanticError.filter_blames_self rfl rfl)
      | some found =>
          refine ⟨found, ?_⟩
          rw [(hknown found hm).defined]
          rfl

theorem accounted_typeName {owner : Owner} {decl : VarDecl}
    {found : Option (Option (ScopeStack Symbol))}
    (hnote : a.notes name = (Site.typeName name found).notes) :
    (Occurrence.typeName owner decl name).Accounted xs a := by
  cases found with
  | none => exact Or.inr (Or.inl (hnote.trans Site.notes_unknownType))
  | some fields => exact Or.inl ⟨fields, hnote⟩

include hnotes

theorem accounted_varName {owner : Owner} {decl : VarDecl} {verdict : Verdict}
    (hsite : .declared decl.name verdict ∈ xs) (hfits : verdict.Fits xs owner decl) :
    (Occurrence.varName owner decl).Accounted xs a := by
  have hnote : a.notes decl.name = (Site.declared decl.name verdict).notes := hnotes _ hsite
  cases hfits with
  | bound henv hs =>
      have hknown := TypeSpec.known_symbolIn henv hs
      exact Or.inl ⟨_, hsite, hknown.defined, hnote⟩
  | void =>
      have hvoid := Analysis.rejects_of_notes hnotes (hnote.trans Site.notes_void)
      exact Or.inr (Or.inl hvoid)
  | taken =>
      have htaken := Analysis.rejects_of_notes hnotes (hnote.trans Site.notes_taken)
      exact Or.inr (Or.inr (Or.inl htaken))
  | hidden hpass =>
      have hsilent := Analysis.rejects_of_notes hnotes hnote
      exact Or.inr (Or.inr (Or.inr ⟨hsilent, Or.inr hpass⟩))
  | @unknownType name ht htype =>
      have hsilent := Analysis.rejects_of_notes hnotes hnote
      have hreported : a.notes name = (none, [.invalidStructTypeName name.name name.pos]) :=
        (hnotes _ htype).trans Site.notes_unknownType
      exact Or.inr (Or.inr (Or.inr ⟨hsilent, Or.inl ⟨name, ht, hreported⟩⟩))

/-- A site that settles an occurrence accounts for it. -/
theorem accounted (herrors : ∀ x ∈ xs, ∀ error ∈ x.errors, error ∈ a.errors) (hx : x ∈ xs)
    (h : Settles xs o x) : o.Accounted xs a := by
  have hnote := hnotes x hx
  cases h with
  | use hknown => exact accounted_use hnote hknown
  | @member env base field hb hknown =>
      have hbase := base.recorded_eq_meaning hnotes hb
      exact accounted_member hbase hnote (herrors _ hx) hknown
  | typeName => exact accounted_typeName hnote
  | typePassedOver hpass => exact Or.inr (Or.inr ⟨hnote, hpass⟩)
  | varName hfits => exact accounted_varName hnotes hx hfits
  | varPassedOver hpass =>
      have hsilent := Analysis.rejects_of_notes hnotes hnote
      exact Or.inr (Or.inr (Or.inr ⟨hsilent, Or.inr hpass⟩))
  | topBound hs => exact Or.inl ⟨_, hx, hs, hnote⟩
  | topTaken => exact Or.inr (Analysis.rejects_of_notes hnotes (hnote.trans Site.notes_taken))
  | returnType => exact hnote

end Settles

end Accounts

namespace Program

variable {p : Program}

/-- If occurrences stand at places of their own, so do the sites. -/
theorem pairwise_sites_of_distinct
    (hdistinct : (p.occurrences.map Occurrence.ident).Pairwise fun a b => a.pos ≠ b.pos) :
    p.sites.Pairwise fun a b => a.ident.pos ≠ b.ident.pos := by
  have hsites : (p.sites.map Site.ident).Pairwise fun a b => a.pos ≠ b.pos :=
    (p.perm_sites.pairwise_iff fun h => h.symm).mpr hdistinct
  rwa [List.pairwise_map] at hsites

/-- If occurrences stand at increasing places, the sites are about places of their own. -/
theorem pairwise_sites
    (hordered : (p.occurrences.map Occurrence.ident).Pairwise fun a b => a.pos < b.pos) :
    p.sites.Pairwise fun a b => a.ident.pos ≠ b.ident.pos := by
  refine pairwise_sites_of_distinct (hordered.imp fun hlt heq => ?_)
  rw [heq] at hlt
  exact Position.lt_irrefl _ hlt

theorem notes_lexical
    (hordered : (p.occurrences.map Occurrence.ident).Pairwise fun a b => a.pos < b.pos) :
    ∀ x ∈ p.sites, p.lexical.notes x.ident = x.notes :=
  fun _ hx => Analysis.notes_add (pairwise_sites hordered) hx

theorem exists_occurrence {x : Site} (hx : x ∈ p.sites) :
    ∃ o ∈ p.occurrences, o.ident = x.ident := by
  have hmem := p.perm_sites.mem_iff.mp (List.mem_map_of_mem hx)
  exact List.mem_map.mp hmem

/-- If occurrences stand at increasing places, every site settles an occurrence. -/
theorem exists_settled {x : Site}
    (hordered : (p.occurrences.map Occurrence.ident).Pairwise fun a b => a.pos < b.pos)
    (hx : x ∈ p.sites) : ∃ o ∈ p.occurrences, Settles p.sites o x := by
  obtain ⟨o, ho, hident⟩ := exists_occurrence hx
  obtain ⟨y, hy, hsettles⟩ := p.exists_settles ho
  have hpos : y.ident.pos = x.ident.pos := congrArg Ident.pos (hsettles.ident.trans hident)
  have hnodup : (p.sites.map fun site => site.ident.pos).Nodup :=
    List.pairwise_map.mpr (pairwise_sites hordered)
  obtain rfl := List.inj_on_of_nodup_map hnodup hy hx hpos
  exact ⟨o, ho, hsettles⟩

/-- Meanings are recorded at sites only. -/
theorem exists_site_of_get? {pos : Position} {symbol : Symbol}
    (h : p.lexical.resolutions.get? pos = some symbol) : ∃ x ∈ p.sites, x.ident.pos = pos := by
  by_contra hex
  have hne : ∀ x ∈ p.sites, x.ident.pos ≠ pos := fun x hx heq => hex ⟨x, hx, heq⟩
  rw [lexical, Analysis.add_resolutions,
    Resolutions.get?_foldl_record_of_ne (Analysis.ne_of_mem_meanings hne)] at h
  cases h

/-- Meanings are recorded at occurrences only. -/
theorem exists_occurrence_of_get? {pos : Position} {symbol : Symbol}
    (h : p.lexical.resolutions.get? pos = some symbol) :
    ∃ o ∈ p.occurrences, o.ident.pos = pos := by
  obtain ⟨x, hx, rfl⟩ := exists_site_of_get? h
  obtain ⟨o, ho, hident⟩ := exists_occurrence hx
  exact ⟨o, ho, congrArg Ident.pos hident⟩

/-- Misuses of names are reported at occurrences of these names only. -/
theorem exists_occurrence_of_error {error : SemanticError} (h : error ∈ p.lexical.errors)
    (hn : error.name?.isSome = true) :
    ∃ o ∈ p.occurrences, error.name? = some o.ident.name ∧ error.pos = o.ident.pos := by
  obtain ⟨x, hx, herror⟩ := List.mem_flatMap.mp h
  obtain ⟨o, ho, hident⟩ := exists_occurrence hx
  refine ⟨o, ho, ?_⟩
  rw [hident]
  exact Site.named_of_mem_errors herror hn

end Program

/-- In a text on which a check succeeds, the occurrences of names stand at increasing places, and
each is accounted for: by its meaning, if it has one, and by what is reported about it.  Nothing
else is recorded, and nothing else is reported about a name. -/
theorem check_accounts {source : String} {checked : Checked} (h : check source = .ok checked) :
    (checked.program.occurrences.map Occurrence.ident).Pairwise (fun a b => a.pos < b.pos) ∧
      (∀ o ∈ checked.program.occurrences,
        o.Accounted checked.program.sites checked.analysis) ∧
      (∀ pos symbol, checked.analysis.resolutions.get? pos = some symbol →
        ∃ o ∈ checked.program.occurrences, o.ident.pos = pos) ∧
      ∀ error ∈ checked.analysis.errors, error.name?.isSome = true →
        ∃ o ∈ checked.program.occurrences,
          error.name? = some o.ident.name ∧ error.pos = o.ident.pos := by
  obtain ⟨p, hp, rfl⟩ := check_ok_iff.mp h
  have hordered := Program.occurrences_ordered hp
  have hnotes := Program.notes_lexical hordered
  refine ⟨hordered, fun o ho => ?_, fun _ _ => Program.exists_occurrence_of_get?,
    fun _ => Program.exists_occurrence_of_error⟩
  obtain ⟨x, hx, hsettles⟩ := p.exists_settles ho
  refine hsettles.accounted hnotes (fun y hy error herror => ?_) hx
  exact List.mem_flatMap.mpr ⟨y, hy, herror⟩

/-- A struct, a field that is selected, and a name that is not declared. -/
theorem check_accounts_of_struct :
    ∃ checked, check "struct P\x7bint a;\x7d P p; int f()\x7bp.a=q;\x7d" = .ok checked ∧
      checked.program.occurrences.map Occurrence.ident =
        [⟨"P", ⟨1, 8⟩⟩, ⟨"a", ⟨1, 14⟩⟩, ⟨"P", ⟨1, 18⟩⟩, ⟨"p", ⟨1, 20⟩⟩, ⟨"f", ⟨1, 27⟩⟩,
          ⟨"p", ⟨1, 31⟩⟩, ⟨"a", ⟨1, 33⟩⟩, ⟨"q", ⟨1, 35⟩⟩] ∧
      ∀ o ∈ checked.program.occurrences,
        o.Accounted checked.program.sites checked.analysis := by
  have hidents : (check "struct P\x7bint a;\x7d P p; int f()\x7bp.a=q;\x7d").toOption.map
      (fun checked => checked.program.occurrences.map Occurrence.ident) =
        some [⟨"P", ⟨1, 8⟩⟩, ⟨"a", ⟨1, 14⟩⟩, ⟨"P", ⟨1, 18⟩⟩, ⟨"p", ⟨1, 20⟩⟩, ⟨"f", ⟨1, 27⟩⟩,
          ⟨"p", ⟨1, 31⟩⟩, ⟨"a", ⟨1, 33⟩⟩, ⟨"q", ⟨1, 35⟩⟩] := by
    decide +kernel
  cases h : check "struct P\x7bint a;\x7d P p; int f()\x7bp.a=q;\x7d" with
  | error error =>
      rw [h] at hidents
      cases hidents
  | ok checked =>
      rw [h] at hidents
      exact ⟨checked, rfl, Option.some.inj hidents, (check_accounts h).2.1⟩

end NameCheck
