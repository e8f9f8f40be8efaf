import NameCheck.Proofs.Grammar.Choices
import NameCheck.Proofs.Grammar.Tracks

/-!
# Expressions are kept track of

The parsers of expressions keep track of what is derived from their nonterminals.  Two of their
choices give something up: a call that is not finished is read as a name, and an assignment that is
not finished as a location.  The bracket or equals sign that is left there continues nothing, so
that what is read next fails at it.
-/

namespace NameCheck.Grammar

open NameCheck.Parser

variable {ts us vs xs ys zs : List Lexeme} {t u : Lexeme} {e : Expr} {s s₁ s₂ s₃ s₄ : Span}
  {m : Sign} {ms : List Sign} {H K : List Lexeme → Prop}

/-! ## Signs that are refused -/

theorem failsHere_of_follow (h : ¬NextNot ms us) (hm : m ∉ ms) : FailsHere (sign m) us := by
  refine failsHere_token fun t ht heq => h fun t' ht' m' hm' heq' => hm ?_
  cases Option.mem_unique ht ht'
  rw [heq] at heq'
  rwa [Token.sign.inj heq']

theorem failsHere_of_begun {n : Nonterminal} (h : ∃ t ∈ us.head?, n.first t.token = true)
    (hm : n.first (.sign m) = false) : FailsHere (sign m) us := by
  obtain ⟨t, ht, hfirst⟩ := h
  refine failsHere_token fun t' ht' heq => ?_
  cases Option.mem_unique ht ht'
  rw [heq, hm] at hfirst
  cases hfirst

/-! ## Locations -/

/-- The tokens of a location. -/
def leadsLocation : Token → Bool
  | .name _ => true
  | .sign m => m = .dot
  | _ => false

theorem plain_of_leadsLocation (h : leadsLocation t.token = true) : Plain t := by
  constructor
  · intro heq
    simp [heq, leadsLocation] at h
  · intro heq
    simp [heq, leadsLocation] at h

theorem Derives.dotNames_lead {fs : List Ident} (h : Derives (.many .dotName) xs fs) :
    ∀ t ∈ xs, leadsLocation t.token = true := by
  induction fs generalizing xs with
  | nil =>
      cases h
      nofun
  | cons f fs ih =>
      cases h with
      | manyCons hf hfs =>
          cases hf with
          | dotName => exact List.forall_mem_cons.mpr ⟨rfl, List.forall_mem_cons.mpr ⟨rfl, ih hfs⟩⟩

theorem Derives.loc_leads (h : Derives .loc xs e) : ∀ t ∈ xs, leadsLocation t.token = true := by
  cases h with
  | loc hfs => exact List.forall_mem_cons.mpr ⟨rfl, hfs.dotNames_lead⟩

theorem repeatable_dotName : Repeatable .dotName where
  not_nullable := rfl
  tells := tells_dotName
  ends_nil := trivial
  ends_again := fun _ _ _ => trivial
  halts := nofun

theorem tracks_dotName {id : Ident} (h : Derives .dotName xs id) :
    Tracks Nonterminal.dotName.Halted Nonterminal.dotName.parser xs := by
  cases h with
  | dotName =>
      exact .token_bind (f := fun _ => ident)
        (.single tells_ident.forward fun us => ⟨_, reads_ident_cons⟩)

theorem tracks_location (h : Derives .loc xs e) :
    Tracks Nonterminal.loc.Halted location xs := by
  cases h with
  | loc hfs =>
      refine .ident_bind fun _ => Tracks.map
        (repeatable_dotName.tracks (fun _ _ => tracks_dotName) hfs) fun us hus => ?_
      obtain ⟨t, ht, hfirst⟩ := hus.resolve_left nofun
      exact fun hnext => hnext t ht .dot (List.mem_singleton_self _) (of_decide_eq_true hfirst)

theorem stopsBefore_location (h : Derives .loc xs e) (hm : m ≠ .dot) :
    StopsBefore location xs (⟨.sign m, s⟩ :: us) := by
  refine h.stopsBefore (n := .loc) tells_location nextNot_nil fun ws => nextNot_cons.mpr ?_
  simpa using hm

/-- A location before a sign and something else. -/
theorem tracks_location_sign {α : Type} {f : Expr → Unit → Parser α} (h : Derives .loc xs e)
    (hm : m ≠ .dot) (hf : ∀ a, Tracks K (f a ()) zs) :
    Tracks K (do let a ← location; sign m >>= f a) (xs ++ ⟨.sign m, s⟩ :: zs) :=
  (tracks_location h).bind_sign (fun _ => stopsBefore_location h hm)
    (fun _ hus => failsHere_of_follow hus (by simpa using hm)) hf

/-! ## Expressions -/

theorem not_fails_location {x : String} : ¬Fails location (⟨.name x, s⟩ :: us) := by
  intro hfail
  rcases fails_bind.mp hfail with hfail | ⟨a, vs, -, hfail⟩
  · exact reads_ident_cons.not_fails hfail
  · exact not_fails_map not_fails_many hfail

/-- An atom is read whatever comes after it, though perhaps as something longer. -/
theorem Derives.atom_not_fails (h : Derives .atom xs e) : ¬Fails (atom expr) (xs ++ us) := by
  intro hfail
  obtain ⟨hcall, hfail⟩ := fails_orElse.mp hfail
  obtain ⟨hliteral, hfail⟩ := fails_orElse.mp hfail
  obtain ⟨hloc, hparen⟩ := fails_orElse.mp hfail
  cases h with
  | atomCall he => exact (he.readsBack us trivial).not_fails hcall
  | atomInt | atomStr | atomTrue | atomFalse => cases fails_select_cons.mp hliteral
  | atomLoc he =>
      cases he with
      | loc => exact not_fails_location hloc
  | atomParen he =>
      rw [List.cons_append, List.append_assoc] at hparen
      exact (reads_between_of (he.readsBack _ (ends_exp (by decide)))).not_fails hparen

theorem Derives.level_not_fails {l : Level} (h : Derives (.level l) xs e) :
    ¬Fails (l.parser expr) (xs ++ us) := by
  induction l using Level.induction generalizing xs e us with
  | unary =>
      cases h with
      | level hk => cases hk
      | @unary ts ops xs _ hos he =>
          have hops : Reads (many Nonterminal.unaryOp.parser) (ts ++ (xs ++ us)) ops
              (xs ++ us) := by
            obtain ⟨t, rest, rfl, ht⟩ := he.begins.exists_first rfl
            refine hos.readsBack _ ⟨rfl, trivial, fails_of_first (n := .unaryOp) rfl ?_, ?_⟩
            · rintro _ ⟨⟩
              exact first_unaryOp_of_startsAtom ht
            · exact fun _ _ _ _ => trivial
          intro hfail
          rw [List.append_assoc] at hfail
          rcases fails_bind.mp hfail with hfail | ⟨ops', vs, hread, hfail⟩
          · exact not_fails_many hfail
          · obtain ⟨-, rfl⟩ := hread.unique hops
            exact not_fails_map he.atom_not_fails hfail
  | step l k hk ih =>
      cases h with
      | unary => cases hk
      | level hk' he hos =>
          cases hk.symm.trans hk'
          intro hfail
          rw [Level.parser_eq hk, List.append_assoc] at hfail
          rcases fails_bind.mp hfail with hfail | ⟨a, vs, -, hfail⟩
          · exact ih he hfail
          · exact not_fails_map not_fails_many hfail

theorem Derives.exp_not_fails (h : Derives .exp xs e) : ¬Fails expr (xs ++ us) := by
  induction hn : xs.length using Nat.strongRecOn generalizing xs e with
  | ind n ih =>
      intro hfail
      rw [expr_eq] at hfail
      obtain ⟨hassign, hlevel⟩ := fails_orElse.mp hfail
      cases h with
      | or he => exact he.level_not_fails (l := .or) hlevel
      | @assign ts _ ys _ _ hl hr =>
          rw [List.append_assoc, List.cons_append] at hassign
          have hlt : ys.length < n := by
            rw [← hn, List.length_append, List.length_cons]
            omega
          rcases reads_or_fails expr (ys ++ us) with ⟨rhs, vs, hread⟩ | hfail
          · exact (reads_assignment hl hread).not_fails hassign
          · exact ih ys.length hlt hr rfl hfail

/-- A call that fails is not finished in what comes next. -/
theorem not_derives_of_fails_call (h : Fails (call expr) ts) :
    ∀ xs e, xs <+: ts → ¬Derives .call xs e := by
  rintro xs e ⟨us, rfl⟩ he
  exact (he.readsBack us trivial).not_fails h

theorem not_derives_of_fails_expr (h : Fails expr ts) :
    ∀ xs e, xs <+: ts → ¬Derives .exp xs e := by
  rintro xs e ⟨us, rfl⟩ he
  exact he.exp_not_fails h

/-! ### Expressions before a sign -/

/-- What an expression leaves where something was given up is no sign that may end it. -/
theorem failsHere_of_exp (hm : m ∈ [.comma, .rparen, .semicolon]) (h : Nonterminal.exp.Halted us) :
    FailsHere (sign m) us :=
  have hends : Nonterminal.exp.Ends [⟨.sign m, .first, .first⟩] := ends_exp hm
  failsHere_of_follow h fun hmem => nextNot_cons.mp hends m hmem rfl

theorem Derives.exp_stopsBefore (h : Derives .exp xs e) (hm : m ∈ [.comma, .rparen, .semicolon]) :
    StopsBefore expr xs (⟨.sign m, s⟩ :: us) :=
  h.stopsBefore (n := .exp) tells_expr nextNot_nil fun _ => ends_exp hm

/-- An expression before a sign and something else. -/
theorem tracks_exp_sign {α : Type} {f : Expr → Unit → Parser α} (h : Derives .exp xs e)
    (ih : Tracks Nonterminal.exp.Halted expr xs) (hm : m ∈ [.comma, .rparen, .semicolon])
    (hf : ∀ a, Tracks K (f a ()) zs) :
    Tracks K (do let a ← expr; sign m >>= f a) (xs ++ ⟨.sign m, s⟩ :: zs) :=
  ih.bind_sign (fun _ => h.exp_stopsBefore hm) (fun _ => failsHere_of_exp hm) hf

/-! ### Calls and atoms -/

theorem repeatable_nextExp : Repeatable (.next .exp) where
  not_nullable := rfl
  tells := tells_next tells_expr
  ends_nil := nextNot_nil
  ends_again := by
    rintro ⟨k, s⟩ us ht
    obtain rfl : k = .sign .comma := of_decide_eq_true ht
    exact ends_exp (by decide)
  halts := fun us hus => (failsHere_of_exp (by decide) hus).bind

theorem listed_exp : Listed .exp where
  not_nullable := rfl
  tells := tells_expr
  next := repeatable_nextExp

theorem failsHere_of_list {n : Nonterminal} (h : (Nonterminal.list n).Halted us)
    (hH : n.Halted us → FailsHere (sign m) us) (hm : (Nonterminal.list n).first (.sign m) = false) :
    FailsHere (sign m) us :=
  h.elim hH fun h => failsHere_of_begun h hm

theorem tracks_call {x : String} {as : List Expr} (has : Derives (.list .exp) ts as)
    (ih : Tracks (Nonterminal.list .exp).Halted (sepBy expr (sign .comma)) ts) :
    Tracks K (call expr)
      (⟨.name x, s₁⟩ :: ⟨.sign .lparen, s₂⟩ :: (ts ++ [⟨.sign .rparen, s₃⟩])) := by
  refine .ident_bind fun _ => Tracks.map (H := K) (ih.between ?_ ?_) fun _ => id
  · exact fun us => listed_exp.stopsBefore has rfl fun us => ends_exp (by decide)
  · exact fun us hus => failsHere_of_list hus (failsHere_of_exp (by decide)) rfl

theorem failsHere_ident (h : ∀ x, t.token ≠ .name x) : FailsHere ident (t :: ts) := by
  obtain ⟨k, s⟩ := t
  cases k with
  | name x => exact absurd rfl (h x)
  | _ => exact ⟨_, rfl, rfl⟩

theorem failsHere_literal {x : String} : FailsHere literal (⟨.name x, s⟩ :: ts) :=
  ⟨_, rfl, rfl⟩

/-- A call that is not finished is read as a location. -/
theorem atom_of_fails_call {x : String} (h : Fails (call expr) (⟨.name x, s⟩ :: ts)) :
    atom expr (.of (⟨.name x, s⟩ :: ts)) = location (.of (⟨.name x, s⟩ :: ts)) := by
  obtain ⟨miss, hcall⟩ := h
  obtain ⟨miss', hliteral, -⟩ : FailsHere literal (⟨.name x, s⟩ :: ts) := failsHere_literal
  rcases done_or_failed location (⟨.name x, s⟩ :: ts) with ⟨a, us, missed, hl⟩ | hfail
  · rw [hl]
    exact orElse_of_failed_of_done hcall (orElse_of_failed_of_done hliteral (orElse_of_done hl))
  · exact absurd hfail not_fails_location

theorem left_location_le {x : String} :
    (location (.of (⟨.name x, s⟩ :: us))).left ≤ us.length := by
  rcases done_or_failed location (⟨.name x, s⟩ :: us) with ⟨a, vs, missed, hl⟩ | hfail
  · have hlt : vs.length < us.length + 1 := consumes_location _ a vs ⟨missed, hl⟩
    rw [hl]
    exact Outcome.left_done_le.trans (Nat.le_of_lt_succ hlt)
  · exact absurd hfail not_fails_location

theorem tracks_atomCall (h : Derives .call xs e)
    (ih : Tracks Nonterminal.call.Halted (call expr) xs) :
    Tracks Nonterminal.atom.Halted (atom expr) xs := by
  obtain ⟨x, s₁, s₂, rest, rfl, hloc⟩ := h.call_starts
  refine ⟨(tells_atom tells_expr).forward, fun ys us hne hys => ?_⟩
  -- if the call is read, or fails and only its name is known, nothing is given up
  rcases done_or_failed (call expr) (ys ++ us) with ⟨a, vs, missed, hp⟩ | hfail
  · exact ((ih.blames ys us hne hys).congr ((orElse_of_done hp).trans hp.symm)).mono nofun
  obtain ⟨zs, rfl, hzs⟩ := (List.prefix_cons_iff.mp hys).resolve_left hne
  have hout := atom_of_fails_call hfail
  rcases List.prefix_cons_iff.mp hzs with rfl | ⟨ws, rfl, -⟩
  · exact .reaches ((congrArg Outcome.left hout).trans_le left_location_le)
  · obtain ⟨a, missed, hl, hleft⟩ :
        StopsBefore location [⟨.name x, s₁⟩] (⟨.sign .lparen, s₂⟩ :: (ws ++ us)) :=
      stopsBefore_location hloc (by decide)
    have hcall : GivenUp ([] ++ [⟨.name x, s₁⟩]) (⟨.sign .lparen, s₂⟩ :: (ws ++ us)) :=
      .call (not_derives_of_fails_call hfail)
    have hts := List.append_assoc [⟨.name x, s₁⟩] (⟨.sign .lparen, s₂⟩ :: ws) us
    refine .givesUp hts hcall ?_ fun b vs missed' hd hnext => ?_
    · refine (congrArg Outcome.left hout).trans (Nat.le_antisymm ?_ hleft)
      rw [List.singleton_append] at hl
      exact (congrArg Outcome.left hl).trans_le Outcome.left_done_le
    · obtain ⟨-, rfl⟩ := Reads.unique ⟨missed', hd⟩ ⟨missed, hout.trans hl⟩
      exact nextNot_cons.mp hnext .lparen (by decide) rfl

/-! An atom of another kind is told from a call by its first two lexemes. -/

theorem Derives.call_marked (h : Derives .call xs e) :
    Marked leadsLocation (true, .sign .lparen) xs := by
  cases h with
  | call => exact ⟨[_], _, _, rfl, List.forall_mem_singleton.mpr rfl, rfl, iff_of_true rfl nofun⟩

theorem tracks_atomLoc (h : Derives .loc xs e) : Tracks Nonterminal.atom.Halted (atom expr) xs := by
  have hloc : Tracks Nonterminal.atom.Halted location xs :=
    (tracks_location h).mono fun us hus hnext => hus (NextNot.mono hnext (by decide))
  refine ⟨(tells_atom tells_expr).forward, fun ys us hne hys => ?_⟩
  have hcall : Yields (call expr) (ys ++ us) us.length := by
    refine .of_tells (tells_call tells_expr) (fun _ => plain_of_leadsLocation) ?_ ?_ hys
    · rintro ws ⟨e, he⟩
      exact he.call_marked.exists_not_lead
    · exact fun bs _ hbs t ht => h.loc_leads t (hbs.subset ht)
  have hblames := hloc.blames ys us hne hys
  cases h with
  | @loc _ _ x s =>
      obtain ⟨zs, rfl, -⟩ := (List.prefix_cons_iff.mp hys).resolve_left hne
      have hliteral : Yields literal (⟨.name x, s⟩ :: (zs ++ us)) us.length :=
        .of_failsHere failsHere_literal
      have hparen : Yields (between .lparen .rparen expr) (⟨.name x, s⟩ :: (zs ++ us)) us.length :=
        .of_failsHere (failsHere_token (by simp)).bind
      exact .orElse_right hcall (.orElse_right hliteral (hblames.orElse_left hparen))

theorem tracks_literal (ht : ∀ x, t.token ≠ .name x) (h : ∀ us, Reads literal (t :: us) e us) :
    Tracks H (atom expr) [t] :=
  .single (tells_atom tells_expr).forward fun us => ⟨e, readsBack_literal ht (h us)⟩

/-- An expression in brackets. -/
theorem tracks_condition (h : Derives .exp ts e) (ih : Tracks Nonterminal.exp.Halted expr ts) :
    Tracks H (between .lparen .rparen expr)
      (⟨.sign .lparen, s₁⟩ :: (ts ++ [⟨.sign .rparen, s₂⟩])) := by
  exact ih.between (fun _ => h.exp_stopsBefore (by decide)) fun _ => failsHere_of_exp (by decide)

theorem tracks_atomParen (h : Derives .exp ts e) (ih : Tracks Nonterminal.exp.Halted expr ts) :
    Tracks Nonterminal.atom.Halted (atom expr)
      (⟨.sign .lparen, s₁⟩ :: (ts ++ [⟨.sign .rparen, s₂⟩])) := by
  refine ⟨(tells_atom tells_expr).forward, fun ys us hne hys => ?_⟩
  have hparen : Tracks Nonterminal.atom.Halted (between .lparen .rparen expr)
      (⟨.sign .lparen, s₁⟩ :: (ts ++ [⟨.sign .rparen, s₂⟩])) := tracks_condition h ih
  have hblames := hparen.blames ys us hne hys
  obtain ⟨zs, rfl, -⟩ := (List.prefix_cons_iff.mp hys).resolve_left hne
  have hident {ts : List Lexeme} : FailsHere ident (⟨.sign .lparen, s₁⟩ :: ts) :=
    failsHere_ident (by simp)
  have hliteral {ts : List Lexeme} : FailsHere literal (⟨.sign .lparen, s₁⟩ :: ts) :=
    ⟨_, rfl, rfl⟩
  exact .orElse_right (.of_failsHere hident.bind) (.orElse_right (.of_failsHere hliteral)
    (.orElse_right (.of_failsHere hident.bind) hblames))

/-! ### Levels -/

theorem repeatable_unaryOp : Repeatable .unaryOp where
  not_nullable := rfl
  tells := tells_unaryOp
  ends_nil := trivial
  ends_again := fun _ _ _ => trivial
  halts := nofun

theorem tracks_unaryOp {op : UnaryOp} (h : Derives .unaryOp xs op) :
    Tracks Nonterminal.unaryOp.Halted Nonterminal.unaryOp.parser xs := by
  cases h with
  | unaryOp hm =>
      exact .single tells_unaryOp.forward fun us => ⟨op, readsBack_unaryOp hm us trivial⟩

theorem tracks_unary {ops : List UnaryOp} (hos : Derives (.many .unaryOp) ts ops)
    (he : Derives .atom us e) (ih : Tracks Nonterminal.atom.Halted (atom expr) us) :
    Tracks (Nonterminal.level .unary).Halted (unary expr) (ts ++ us) := by
  have hops := repeatable_unaryOp.tracks (fun _ _ => tracks_unaryOp) hos
  refine hops.bind (fun u hu vs => ?_) (fun _ => ih.map fun _ => id) fun _ vs hvs => ?_
  · obtain ⟨t, rest, rfl, ht⟩ := he.begins.exists_first rfl
    cases hu
    exact repeatable_unaryOp.stopsBefore hos (first_unaryOp_of_startsAtom ht) fun _ => trivial
  · obtain ⟨t, ht, hfirst⟩ := hvs.resolve_left nofun
    have hatom : FailsHere (atom expr) vs := by
      refine failsHere_of_first (n := .atom) (tells_atom tells_expr) rfl fun t' ht' => ?_
      cases Option.mem_unique ht ht'
      by_contra hatom
      have hnot := first_unaryOp_of_startsAtom (Bool.eq_true_of_not_eq_false hatom)
      exact Bool.false_ne_true (hnot.symm.trans hfirst)
    exact .of_failsHere hatom.bind

section Levels

variable {l k : Level} {os : List (BinaryOp × Expr)}

theorem repeatable_operation (hk : l.operand? = some k) : Repeatable (.operation l) where
  not_nullable := rfl
  tells := tells_operation hk (tells_level tells_expr k)
  ends_nil := fun _ _ => nextNot_nil
  ends_again := by
    rintro ⟨t, s⟩ us ht k' hk'
    refine nextNot_cons.mpr fun m hm heq => ?_
    obtain ⟨entry, hentry, heq'⟩ := List.mem_map.mp (of_decide_eq_true ht)
    cases heq'.trans heq
    exact Level.not_mem_follow hk' entry hentry hm
  halts := by
    rintro us ⟨k', hk', hus⟩
    refine failsHere_of_first (n := .operation l) (tells_operation hk (tells_level tells_expr k))
      rfl fun t ht => ?_
    by_contra hfirst
    obtain ⟨entry, hentry, heq⟩ :=
      List.mem_map.mp (of_decide_eq_true (Bool.eq_true_of_not_eq_false hfirst))
    refine hus fun t' ht' m hm heq' => ?_
    cases Option.mem_unique ht ht'
    cases heq.trans heq'
    exact Level.not_mem_follow hk' entry hentry hm

theorem tracks_operation {op : BinaryOp} (hm : (m, op) ∈ l.ops) (hk : l.operand? = some k)
    (ih : Tracks (Nonterminal.level k).Halted (k.parser expr) ts) :
    Tracks (Nonterminal.operation l).Halted (l.operation expr) (⟨.sign m, s⟩ :: ts) := by
  rw [Level.operation_eq hk]
  refine .single_bind (tells_levelOperator hk) ?_ (fun us => ⟨op, ?_⟩)
    fun _ => ih.map fun us hus => ⟨k, hk, hus⟩
  · rintro _ ⟨m, a, s, -, rfl⟩
    rfl
  · exact (readsOneOf_levelOperator l _ _ _).mpr ⟨m, s, hm, rfl⟩

theorem tracks_level (hk : l.operand? = some k) (he : Derives (.level k) ts e)
    (hos : Derives (.many (.operation l)) us os)
    (ih : Tracks (Nonterminal.level k).Halted (k.parser expr) ts)
    (ihos : Tracks (Nonterminal.many (.operation l)).Halted
      (many (Nonterminal.operation l).parser) us) :
    Tracks (Nonterminal.level l).Halted (l.parser expr) (ts ++ us) := by
  have hop := repeatable_operation hk
  have hwider {vs : List Lexeme} (h : ¬NextNot k.follow vs) : ¬NextNot l.follow vs :=
    fun hnext => h (hnext.mono (Level.follow_subset hk))
  rw [Nonterminal.parser, Level.operation_eq hk] at ihos
  rw [Level.parser_eq hk]
  refine ih.bind (fun u hu vs => ?_) (fun _ => ihos.map fun vs hvs => ?_) fun _ vs hvs => ?_
  · exact he.stopsBefore (n := .level k) (tells_level tells_expr k) nextNot_nil fun ws =>
      hop.ends_again u ws (hos.first_of_many hu) k hk
  · rcases hvs with ⟨k', hk', hvs⟩ | ⟨t, ht, hfirst⟩
    · cases hk.symm.trans hk'
      exact hwider hvs
    · obtain ⟨entry, hentry, heq⟩ := List.mem_map.mp (of_decide_eq_true hfirst)
      exact fun hnext => hnext t ht entry.1
        (Level.ops_subset (List.mem_map_of_mem hentry)) heq.symm
  · have hfails := hop.halts vs ⟨k, hk, hvs⟩
    rw [Nonterminal.parser, Level.operation_eq hk] at hfails
    have hmany : Refuses (fun vs => ¬NextNot k.follow vs) (many (do
        let op ← l.operator
        let rhs ← k.parser expr
        return (op, rhs))) vs := .many hfails hvs
    exact hmany.bind fun _ _ hws => .pure (hwider hws)

theorem tracks_level_of_atom (h : Derives .atom xs e)
    (ih : Tracks Nonterminal.atom.Halted (atom expr) xs) (l : Level) :
    Tracks (Nonterminal.level l).Halted (l.parser expr) xs := by
  induction l using Level.induction with
  | unary => exact tracks_unary .manyNil h ih
  | step l k hk ihk =>
      rw [← List.append_nil xs]
      exact tracks_level hk (h.level_of_atom k) .manyNil ihk (repeatable_operation hk).tracks_nil

end Levels

/-! ### Assignments -/

/-- What is derived without assignments is not an assignment up to its equals sign. -/
theorem Derives.not_begins_assign {l : Level} {lhs : Expr} (h : Derives (.level l) xs e)
    (hl : Derives .loc ys lhs) : ¬ys ++ [⟨.sign .assign, s⟩] <+: xs := by
  rintro ⟨zs, rfl⟩
  have hfails : Fails (assignment (Pure.pure lhs)) (ys ++ [⟨.sign .assign, s⟩] ++ zs ++ []) :=
    fails_assignment_of_level h nextNot_nil
  have hnext : NextNot [.dot] (⟨.sign .assign, s⟩ :: zs) := nextNot_cons.mpr (by simp)
  have hread : Reads (assignment (Pure.pure lhs)) (ys ++ ⟨.sign .assign, s⟩ :: zs)
      (.assign lhs.pos lhs lhs) zs :=
    (reads_location hl hnext).bind (reads_sign_cons.bind (Reads.pure.bind .pure))
  rw [List.append_nil, List.append_assoc] at hfails
  exact hread.not_fails hfails

/-- What ends no disjunction ends no expression either. -/
theorem halted_exp (h : (Nonterminal.level .or).Halted us) : Nonterminal.exp.Halted us :=
  fun hnext => h (hnext.mono (List.subset_cons_self _ _))

theorem tracks_or (h : Derives (.level .or) ts e)
    (ih : Tracks (Nonterminal.level .or).Halted (disjunction expr) ts) :
    Tracks Nonterminal.exp.Halted expr ts := by
  refine ⟨tells_expr.forward, fun ys us hne hys => ?_⟩
  rw [expr_eq]
  have hassign : Yields (assignment expr) (ys ++ us) us.length := by
    refine .of_tells (tells_assignment tells_expr) (fun _ => plain_of_leadsLocation) ?_ ?_ hys
    · rintro _ ⟨xs, -, _, ⟨_, ⟨s, rfl⟩, zs, -, rfl⟩, rfl⟩
      exact ⟨⟨.sign .assign, s⟩, by simp, rfl⟩
    · rintro bs ⟨cs, xs, ⟨lhs, hl⟩, _, ⟨_, ⟨s, rfl⟩, zs, -, rfl⟩, hbs⟩ hpre
      have hbs : bs <+: xs ++ (⟨.sign .assign, s⟩ :: zs) := ⟨cs, hbs.symm⟩
      rcases prefix_append_cases hbs with hbs | ⟨ws, hws, rfl, hpre'⟩
      · exact fun t ht => hl.loc_leads t (hbs.subset ht)
      · obtain ⟨ws, rfl, -⟩ := (List.prefix_cons_iff.mp hpre').resolve_left hws
        have hassign : xs ++ [⟨.sign .assign, s⟩] <+: xs ++ ⟨.sign .assign, s⟩ :: ws :=
          ⟨ws, by rw [List.append_assoc]; rfl⟩
        exact absurd (hassign.trans hpre) (h.not_begins_assign hl)
  exact .orElse_right hassign ((ih.blames ys us hne hys).mono fun _ => halted_exp)

theorem not_fails_disjunction {x : String} : ¬Fails (disjunction expr) (⟨.name x, s⟩ :: ts) := by
  have hlevel : Derives (.level .or) [⟨.name x, s⟩] _ :=
    Derives.level_of_atom (.atomLoc (.loc .manyNil)) .or
  exact hlevel.level_not_fails

/-- An assignment that is not finished is read as the location before its equals sign. -/
theorem blames_assign {lhs : Expr} {n : Nat} (hl : Derives .loc xs lhs)
    (h : Fails (assignment expr) (xs ++ ⟨.sign .assign, s⟩ :: us)) :
    Blames Nonterminal.exp.Halted expr (xs ++ ⟨.sign .assign, s⟩ :: us) n := by
  obtain ⟨miss, hassign⟩ := h
  have hfails : Fails expr us := by
    rcases reads_or_fails expr us with ⟨rhs, vs, hread⟩ | hfails
    · exact absurd ⟨miss, hassign⟩ (reads_assignment hl hread).not_fails
    · exact hfails
  have hlevel := Derives.level_of_atom (.atomLoc hl) .or
  obtain ⟨a, missed, hread, hleft⟩ :
      StopsBefore (disjunction expr) xs (⟨.sign .assign, s⟩ :: us) :=
    hlevel.stopsBefore (tells_level tells_expr .or) nextNot_nil fun us =>
      nextNot_cons.mpr (by simp [Level.follow])
  have hout := orElse_of_failed_of_done hassign hread
  rw [hread] at hleft
  rw [expr_eq]
  have hgiven : GivenUp ([] ++ xs) (⟨.sign .assign, s⟩ :: us) :=
    .assign hl (not_derives_of_fails_expr hfails)
  refine .givesUp rfl hgiven ?_ ?_
  · exact (congrArg Outcome.left hout).trans (Nat.le_antisymm Outcome.left_done_le hleft)
  · intro b zs missed' hd hnext
    obtain ⟨-, rfl⟩ := Reads.unique ⟨missed', hd⟩ ⟨missed, hout⟩
    exact nextNot_cons.mp hnext .assign List.mem_cons_self rfl

theorem tracks_assign {lhs : Expr} (hl : Derives .loc ts lhs)
    (ih : Tracks Nonterminal.exp.Halted expr us) :
    Tracks Nonterminal.exp.Halted expr (ts ++ ⟨.sign .assign, s⟩ :: us) := by
  have hassign : Tracks Nonterminal.exp.Halted (assignment expr) (ts ++ ⟨.sign .assign, s⟩ :: us) :=
    tracks_location_sign hl (by decide) fun _ => ih.map fun _ => id
  refine ⟨tells_expr.forward, fun ys vs hne hys => ?_⟩
  -- an assignment that fails where only its location is known is read as this location
  rcases done_or_failed (assignment expr) (ys ++ vs) with ⟨a, ws, missed, hp⟩ | ⟨miss, hp⟩
  · rw [expr_eq]
    exact (hassign.blames ys vs hne hys).congr ((orElse_of_done hp).trans hp.symm)
  rcases prefix_append_cases hys with hys | ⟨ws, hws, rfl, hpre⟩
  · have hlevel := tracks_level_of_atom (.atomLoc hl) (tracks_atomLoc hl) .or
    rcases done_or_failed (disjunction expr) (ys ++ vs) with ⟨a, ws, missed, hd⟩ | hfail
    · rw [expr_eq]
      have hout := (orElse_of_failed_of_done hp hd).trans hd.symm
      exact ((hlevel.blames ys vs hne hys).congr hout).mono fun _ => halted_exp
    · cases hl with
      | loc =>
          obtain ⟨zs, rfl, -⟩ := (List.prefix_cons_iff.mp hys).resolve_left hne
          exact absurd hfail not_fails_disjunction
  · obtain ⟨ws, rfl, -⟩ := (List.prefix_cons_iff.mp hpre).resolve_left hws
    rw [List.append_assoc, List.cons_append] at hp ⊢
    exact blames_assign hl ⟨miss, hp⟩

end NameCheck.Grammar
