import Mathlib.Data.List.Basic
import NameCheck.Scope.Stack
import NameCheck.Symbol.Ty

/-!
# Histories of scope stacks

A scope stack is asked one thing after another, from the stack with one empty scope on.  What it
answers is determined by what it was asked before and answered then: by the number of scopes that
are open, and by what was last written in those scopes.
-/

namespace NameCheck

/-! ## Operations and answers -/

namespace ScopeStack

/-- What a scope stack can be asked.  A name is overwritten where the innermost scope binds it. -/
inductive Operation (σ : Type) where
  | add (name : Option String) (symbol : Option σ)
  | declare (name : String) (symbol : σ)
  | push
  | pop
  | lookupLocal (name : String)
  | lookup (name : String)
  | overwrite (name : String) (symbol : σ)

/-- What a scope stack answers: that it was done, what was found, whether something was there to be
overwritten, or why it was refused. -/
inductive Answer (σ : Type) where
  | done
  | found (symbol : Option σ)
  | replaced (there : Bool)
  | refused (error : ScopeError)

/-- Whether an operation only looks something up. -/
def Operation.looks {σ : Type} : Operation σ → Bool
  | .lookupLocal _ | .lookup _ => true
  | .add _ _ | .declare _ _ | .push | .pop | .overwrite _ _ => false

/-- Whether an operation has failed: it was refused, or there was nothing to be overwritten. -/
def Answer.fails {σ : Type} : Answer σ → Bool
  | .refused _ | .replaced false => true
  | .done | .found _ | .replaced true => false

/-- An operation with its answer. -/
structure Event (σ : Type) where
  operation : Operation σ
  answer : Answer σ

variable {σ : Type}

/-- The answer to a change of a stack, and the stack after it. -/
def settle (stack : ScopeStack σ) : Except ScopeError (ScopeStack σ) → Answer σ × ScopeStack σ
  | .ok next => (.done, next)
  | .error error => (.refused error, stack)

/-- The answer to a lookup. -/
def report : Except ScopeError (Option σ) → Answer σ
  | .ok found => .found found
  | .error error => .refused error

/-- The answer to an overwriting, and the stack after it. -/
def settleReplaced (stack : ScopeStack σ) :
    Except ScopeError (Option (ScopeStack σ)) → Answer σ × ScopeStack σ
  | .ok (some next) => (.replaced true, next)
  | .ok none => (.replaced false, stack)
  | .error error => (.refused error, stack)

/-- The answer to an operation, and the stack after it. -/
def perform (stack : ScopeStack σ) : Operation σ → Answer σ × ScopeStack σ
  | .add name symbol => stack.settle (stack.add name symbol)
  | .declare name symbol => stack.settle (stack.declare name symbol)
  | .push => (.done, stack.push)
  | .pop => stack.settle stack.pop
  | .lookupLocal name => (report (stack.lookupLocal name), stack)
  | .lookup name => (report (stack.lookup name), stack)
  | .overwrite name symbol => stack.settleReplaced (stack.replaceLocal name symbol)

/-- The events of operations, one after another, and the stack after them. -/
def run (stack : ScopeStack σ) : List (Operation σ) → List (Event σ) × ScopeStack σ
  | [] => ([], stack)
  | op :: ops =>
    let (events, last) := (stack.perform op).2.run ops
    (⟨op, (stack.perform op).1⟩ :: events, last)

end ScopeStack

open ScopeStack (Operation Answer Event)

variable {σ : Type}

/-! ## What a history tells -/

namespace ScopeStack.Event

/-- Whether a scope was opened. -/
def opens : Event σ → Bool
  | ⟨.push, _⟩ => true
  | _ => false

/-- Whether a scope was closed. -/
def closes : Event σ → Bool
  | ⟨.pop, .done⟩ => true
  | _ => false

/-- The name that was declared, if a declaration was accepted. -/
def declared? : Event σ → Option String
  | ⟨.add (some name) (some _), .done⟩ => some name
  | ⟨.declare name _, .done⟩ => some name
  | _ => none

/-- The name and symbol that were written, by a declaration that was accepted or by an overwriting
of what was there. -/
def written? : Event σ → Option (String × σ)
  | ⟨.add (some name) (some symbol), .done⟩ => some (name, symbol)
  | ⟨.declare name symbol, .done⟩ => some (name, symbol)
  | ⟨.overwrite name symbol, .replaced true⟩ => some (name, symbol)
  | _ => none

end ScopeStack.Event

/-- What a scope stack was asked and what it answered, the first event first. -/
abbrev History (σ : Type) := List (Event σ)

namespace History

/-- How many scopes were opened. -/
def opened (h : History σ) : Nat :=
  h.countP Event.opens

/-- How many scopes were closed. -/
def closed (h : History σ) : Nat :=
  h.countP Event.closes

/-- How many scopes are open: there was one at the beginning. -/
def depth (h : History σ) : Nat :=
  1 + h.opened - h.closed

/-- An event of a history happened in the scope at a depth that is open to this day: the scope was
the innermost one then, and there have never been fewer scopes since. -/
structure Within (h : History σ) (level : Nat) (before : History σ) (event : Event σ)
    (after : History σ) : Prop where
  eq : h = before ++ event :: after
  depth : before.depth = level
  remains : ∀ since, since <+: after → level ≤ (before ++ event :: since).depth

/-- A name was declared in the open scope at a depth. -/
def Declared (h : History σ) (level : Nat) (name : String) : Prop :=
  ∃ before event after, h.Within level before event after ∧ event.declared? = some name

/-- A symbol is what was last written for a name in the open scope at a depth. -/
def LastWritten (h : History σ) (level : Nat) (name : String) (symbol : σ) : Prop :=
  ∃ before event after, h.Within level before event after ∧
    event.written? = some (name, symbol) ∧
    ∀ since later rest, after = since ++ later :: rest →
      (before ++ event :: since).depth = level → ∀ other, later.written? ≠ some (name, other)

/-- What an operation answers after a history. -/
inductive Answers (h : History σ) : Operation σ → Answer σ → Prop where
  | push : Answers h .push .done
  | noScopes {op : Operation σ} (hop : op ≠ .push) (hd : h.depth = 0) :
      Answers h op (.refused .noScopes)
  | pop (hd : 0 < h.depth) : Answers h .pop .done
  | missingBoth (hd : 0 < h.depth) : Answers h (.add none none) (.refused (.missing .both))
  | missingName {symbol : σ} (hd : 0 < h.depth) :
      Answers h (.add none (some symbol)) (.refused (.missing .name))
  | missingSymbol {name : String} (hd : 0 < h.depth) :
      Answers h (.add (some name) none) (.refused (.missing .symbol))
  | taken {name : String} {symbol : σ} (hd : 0 < h.depth) (ht : h.Declared h.depth name) :
      Answers h (.add (some name) (some symbol)) (.refused (.duplicate name))
  | added {name : String} {symbol : σ} (hd : 0 < h.depth) (hf : ¬h.Declared h.depth name) :
      Answers h (.add (some name) (some symbol)) .done
  | declare {name : String} {symbol : σ} {answer : Answer σ}
      (ha : Answers h (.add (some name) (some symbol)) answer) :
      Answers h (.declare name symbol) answer
  | foundLocal {name : String} {symbol : σ} (hd : 0 < h.depth)
      (hs : h.LastWritten h.depth name symbol) :
      Answers h (.lookupLocal name) (.found (some symbol))
  | notLocal {name : String} (hd : 0 < h.depth)
      (hn : ∀ symbol, ¬h.LastWritten h.depth name symbol) :
      Answers h (.lookupLocal name) (.found none)
  | found {name : String} {symbol : σ} {level : Nat} (hd : 0 < h.depth)
      (hs : h.LastWritten level name symbol)
      (hinner : ∀ inner, level < inner → ∀ other, ¬h.LastWritten inner name other) :
      Answers h (.lookup name) (.found (some symbol))
  | notFound {name : String} (hd : 0 < h.depth)
      (hn : ∀ level symbol, ¬h.LastWritten level name symbol) :
      Answers h (.lookup name) (.found none)
  | replaced {name : String} {symbol : σ} (hd : 0 < h.depth) (ht : h.Declared h.depth name) :
      Answers h (.overwrite name symbol) (.replaced true)
  | notReplaced {name : String} {symbol : σ} (hd : 0 < h.depth)
      (hf : ¬h.Declared h.depth name) :
      Answers h (.overwrite name symbol) (.replaced false)

/-! ## One more event -/

variable {h before after : History σ} {e event : Event σ} {level : Nat} {name : String}
  {symbol : σ}

theorem Within.level_le (hw : h.Within level before event after) : level ≤ h.depth := by
  have hlast := hw.remains after (List.prefix_refl after)
  rwa [← hw.eq] at hlast

/-- The last event of a history happened in the scope that was then the innermost one, if this has
not been closed by it. -/
theorem within_last (hd : h.depth = level) (hle : level ≤ (h ++ [e]).depth) :
    (h ++ [e]).Within level h e [] := by
  refine ⟨rfl, hd, fun since hsince => ?_⟩
  obtain rfl := List.prefix_nil.mp hsince
  exact hle

/-- An event that happened in an open scope still did so as long as the scope is not closed. -/
theorem Within.concat (hw : h.Within level before event after) (hle : level ≤ (h ++ [e]).depth) :
    (h ++ [e]).Within level before event (after ++ [e]) := by
  refine ⟨by simp [hw.eq], hw.depth, fun since hsince => ?_⟩
  rcases List.prefix_concat_iff.mp hsince with rfl | hsince
  · have heq : h ++ [e] = before ++ event :: (after ++ [e]) := by simp [hw.eq]
    rwa [heq] at hle
  · exact hw.remains since hsince

/-- An event in an open scope is the last one or was in it before. -/
theorem Within.cases (hw : (h ++ [e]).Within level before event after) :
    (before = h ∧ event = e ∧ after = []) ∨
      ∃ after', after = after' ++ [e] ∧ h.Within level before event after' := by
  have heq := hw.eq
  rcases List.eq_nil_or_concat' after with rfl | ⟨after', last, rfl⟩
  · obtain ⟨rfl, hlast⟩ := List.append_inj' heq rfl
    exact Or.inl ⟨rfl, (List.cons.inj hlast).1.symm, rfl⟩
  · rw [← List.cons_append, ← List.append_assoc] at heq
    obtain ⟨rfl, hlast⟩ := List.append_inj' heq rfl
    cases hlast
    refine Or.inr ⟨after', rfl, rfl, hw.depth, fun since hsince => ?_⟩
    exact hw.remains since (hsince.trans (List.prefix_append after' [e]))

theorem declared_concat : (h ++ [e]).Declared level name ↔
    level ≤ (h ++ [e]).depth ∧
      (h.Declared level name ∨ h.depth = level ∧ e.declared? = some name) := by
  constructor
  · rintro ⟨before, event, after, hin, hd⟩
    refine ⟨hin.level_le, ?_⟩
    rcases hin.cases with ⟨rfl, rfl, rfl⟩ | ⟨after', rfl, hin'⟩
    · exact Or.inr ⟨hin.depth, hd⟩
    · exact Or.inl ⟨before, event, after', hin', hd⟩
  · rintro ⟨hle, ⟨before, event, after, hin, hd⟩ | ⟨hdepth, hd⟩⟩
    · exact ⟨before, event, after ++ [e], hin.concat hle, hd⟩
    · exact ⟨h, e, [], within_last hdepth hle, hd⟩

theorem lastWritten_concat : (h ++ [e]).LastWritten level name symbol ↔
    level ≤ (h ++ [e]).depth ∧
      (h.depth = level ∧ e.written? = some (name, symbol) ∨
        h.LastWritten level name symbol ∧
          (h.depth = level → ∀ other, e.written? ≠ some (name, other))) := by
  constructor
  · rintro ⟨before, event, after, hin, hw, hlast⟩
    refine ⟨hin.level_le, ?_⟩
    rcases hin.cases with ⟨rfl, rfl, rfl⟩ | ⟨after', rfl, hin'⟩
    · exact Or.inl ⟨hin.depth, hw⟩
    · refine Or.inr ⟨⟨before, event, after', hin', hw, ?_⟩, fun hdepth => ?_⟩
      · intro since later rest hafter
        exact hlast since later (rest ++ [e]) (by simp [hafter])
      · rw [hin'.eq] at hdepth
        exact hlast after' e [] rfl hdepth
  · rintro ⟨hle, ⟨hdepth, hw⟩ | ⟨⟨before, event, after, hin, hw, hlast⟩, hnot⟩⟩
    · refine ⟨h, e, [], within_last hdepth hle, hw, fun since later rest hafter => ?_⟩
      simp at hafter
    · refine ⟨before, event, after ++ [e], hin.concat hle, hw, ?_⟩
      intro since later rest hafter hdepth
      rcases List.eq_nil_or_concat' rest with rfl | ⟨rest', last, rfl⟩
      · obtain ⟨rfl, hlater⟩ := List.append_inj' hafter rfl
        cases hlater
        rw [← hin.eq] at hdepth
        exact hnot hdepth
      · rw [← List.cons_append, ← List.append_assoc] at hafter
        obtain ⟨rfl, -⟩ := List.append_inj' hafter rfl
        exact hlast since later rest' rfl hdepth

theorem opened_concat : (h ++ [e]).opened = h.opened + if e.opens then 1 else 0 := by
  rw [opened, List.countP_append, List.countP_singleton]
  rfl

theorem closed_concat : (h ++ [e]).closed = h.closed + if e.closes then 1 else 0 := by
  rw [closed, List.countP_append, List.countP_singleton]
  rfl

end History

/-! ## What an operation does -/

namespace ScopeStack

variable {stack next : ScopeStack σ} {frame : Frame σ} {outer : List (Frame σ)} {event : Event σ}
  {op : Operation σ} {level : Nat} {name : String} {symbol : σ}

/-- What an event does to a stack: nothing, or a scope is opened or closed, or a symbol is written
for a name of the innermost scope, which declares the name if it was free there. -/
inductive Effect : ScopeStack σ → Event σ → ScopeStack σ → Prop where
  | none {stack : ScopeStack σ} {event : Event σ} (ho : event.opens = false)
      (hc : event.closes = false) (hw : event.written? = none) (hd : event.declared? = none) :
      Effect stack event stack
  | opened {stack : ScopeStack σ} : Effect stack ⟨.push, .done⟩ stack.push
  | closed {frame : Frame σ} {outer : List (Frame σ)} :
      Effect ⟨frame :: outer⟩ ⟨.pop, .done⟩ ⟨outer⟩
  | written {frame frame' : Frame σ} {outer : List (Frame σ)} {event : Event σ} {name : String}
      {symbol : σ} (ho : event.opens = false) (hc : event.closes = false)
      (hw : event.written? = some (name, symbol))
      (hd : event.declared? = if (frame.lookup name).isSome then none else some name)
      (hl : ∀ other, frame'.lookup other = if other = name then some symbol else frame.lookup other) :
      Effect ⟨frame :: outer⟩ event ⟨frame' :: outer⟩

/-- A declaration is refused, or it binds a free name of the innermost scope. -/
theorem add_cases (stack : ScopeStack σ) (name? : Option String) (symbol? : Option σ) :
    (∃ error, stack.add name? symbol? = .error error) ∨
      ∃ name symbol frame frame' outer, name? = some name ∧ symbol? = some symbol ∧
        stack = ⟨frame :: outer⟩ ∧ frame.declare? name symbol = some frame' ∧
        stack.add name? symbol? = .ok ⟨frame' :: outer⟩ := by
  obtain ⟨frames⟩ := stack
  cases frames with
  | nil => exact Or.inl ⟨.noScopes, rfl⟩
  | cons frame outer =>
      cases name? with
      | none => cases symbol? <;> exact Or.inl ⟨_, rfl⟩
      | some name =>
          cases symbol? with
          | none => exact Or.inl ⟨_, rfl⟩
          | some symbol =>
              cases hd : frame.declare? name symbol with
              | none => exact Or.inl ⟨.duplicate name, by simp [add, hd]⟩
              | some frame' =>
                  exact Or.inr ⟨name, symbol, frame, frame', outer, rfl, rfl, rfl, hd,
                    by simp [add, hd]⟩

theorem Effect.of_declare? {frame' : Frame σ} (ho : event.opens = false)
    (hc : event.closes = false) (hw : event.written? = some (name, symbol))
    (hd : event.declared? = some name) (h : frame.declare? name symbol = some frame') :
    Effect ⟨frame :: outer⟩ event ⟨frame' :: outer⟩ := by
  obtain ⟨hfree, -⟩ := Frame.declare?_eq_some_iff.mp h
  refine .written ho hc hw ?_ (Frame.lookup_of_declare? h)
  rw [hfree]
  exact hd

theorem isSome_lookup_of_replace? {frame' : Frame σ}
    (h : frame.replace? name symbol = some frame') :
    (frame.lookup name).isSome = true := by
  rw [Option.isSome_iff_ne_none]
  intro hfree
  rw [Frame.replace?_eq_none_iff.mpr hfree] at h
  cases h

/-- Every operation has one of the effects that there are. -/
theorem effect_perform (stack : ScopeStack σ) (op : Operation σ) :
    Effect stack ⟨op, (stack.perform op).1⟩ (stack.perform op).2 := by
  cases op with
  | add name? symbol? =>
      rw [perform]
      rcases stack.add_cases name? symbol? with
        ⟨error, herror⟩ | ⟨name, symbol, frame, frame', outer, rfl, rfl, rfl, hd, hok⟩
      · rw [herror]
        cases name? <;> cases symbol? <;> exact .none rfl rfl rfl rfl
      · rw [hok]
        exact .of_declare? rfl rfl rfl rfl hd
  | declare name symbol =>
      rw [perform, declare]
      rcases stack.add_cases name symbol with
        ⟨error, herror⟩ | ⟨_, _, frame, frame', outer, ⟨⟩, ⟨⟩, rfl, hd, hok⟩
      · rw [herror]
        exact .none rfl rfl rfl rfl
      · rw [hok]
        exact .of_declare? rfl rfl rfl rfl hd
  | push => exact .opened
  | pop =>
      obtain ⟨frames⟩ := stack
      cases frames with
      | nil => exact .none rfl rfl rfl rfl
      | cons frame outer => exact .closed
  | lookupLocal name => exact .none rfl rfl rfl rfl
  | lookup name => exact .none rfl rfl rfl rfl
  | overwrite name symbol =>
      obtain ⟨frames⟩ := stack
      cases frames with
      | nil => exact .none rfl rfl rfl rfl
      | cons frame outer =>
          cases hr : frame.replace? name symbol with
          | none =>
              simp only [perform, replaceLocal, hr, Option.map_none, settleReplaced]
              exact .none rfl rfl rfl rfl
          | some frame' =>
              simp only [perform, replaceLocal, hr, Option.map_some, settleReplaced]
              refine .written rfl rfl rfl ?_ (Frame.lookup_of_replace? hr)
              rw [isSome_lookup_of_replace? hr]
              rfl

theorem settle_of_fails {result : Except ScopeError (ScopeStack σ)}
    (h : (stack.settle result).1.fails = true) : (stack.settle result).2 = stack := by
  cases result with
  | ok next => cases h
  | error error => rfl

theorem settleReplaced_of_fails {result : Except ScopeError (Option (ScopeStack σ))}
    (h : (stack.settleReplaced result).1.fails = true) :
    (stack.settleReplaced result).2 = stack := by
  cases result with
  | ok next? =>
      cases next? with
      | some next => cases h
      | none => rfl
  | error error => rfl

/-- What has failed, and what only looked something up, changed nothing. -/
theorem perform_of_idle (h : op.looks = true ∨ (stack.perform op).1.fails = true) :
    (stack.perform op).2 = stack := by
  cases op with
  | add | declare | pop => exact settle_of_fails (h.resolve_left Bool.false_ne_true)
  | push => exact absurd h (by simp [Operation.looks, perform, Answer.fails])
  | lookupLocal | lookup => rfl
  | overwrite => exact settleReplaced_of_fails (h.resolve_left Bool.false_ne_true)

/-- A declaration in a scope is refused exactly if the scope binds the name. -/
theorem perform_add_some : ((⟨frame :: outer⟩ : ScopeStack σ).perform (.add name symbol)).1 =
    if (frame.lookup name).isSome then .refused (.duplicate name) else .done := by
  simp only [perform, add]
  cases hd : frame.declare? name symbol with
  | none =>
      rw [if_pos (Frame.declare?_eq_none_iff.mp hd)]
      rfl
  | some frame' =>
      rw [(Frame.declare?_eq_some_iff.mp hd).1]
      rfl

/-- A scope has something to be overwritten exactly if it binds the name. -/
theorem perform_overwrite : ((⟨frame :: outer⟩ : ScopeStack σ).perform (.overwrite name symbol)).1 =
    .replaced (frame.lookup name).isSome := by
  simp only [perform, replaceLocal]
  cases hr : frame.replace? name symbol with
  | none =>
      rw [Frame.replace?_eq_none_iff.mp hr]
      rfl
  | some frame' =>
      rw [isSome_lookup_of_replace? hr]
      rfl

/-! ## Scopes by depth -/

/-- The scope at a depth binds a name to a symbol; the outermost scope is at depth one. -/
def BindsAt (level : Nat) (name : String) (symbol : σ) : List (Frame σ) → Prop
  | [] => False
  | frame :: outer =>
    level = outer.length + 1 ∧ frame.lookup name = some symbol ∨ BindsAt level name symbol outer

theorem BindsAt.level_le {frames : List (Frame σ)} (h : BindsAt level name symbol frames) :
    level ≤ frames.length := by
  induction frames with
  | nil => cases h
  | cons frame outer ih =>
      rcases h with ⟨hlevel, -⟩ | h
      · exact Nat.le_of_eq hlevel
      · exact Nat.le_succ_of_le (ih h)

theorem bindsAt_top : BindsAt (outer.length + 1) name symbol (frame :: outer) ↔
    frame.lookup name = some symbol := by
  constructor
  · rintro (⟨-, hl⟩ | h)
    · exact hl
    · exact absurd h.level_le (Nat.not_succ_le_self _)
  · exact fun hl => Or.inl ⟨rfl, hl⟩

theorem bindsAt_cons_of_le (hle : level ≤ outer.length) :
    BindsAt level name symbol (frame :: outer) ↔ BindsAt level name symbol outer := by
  constructor
  · rintro (⟨hlevel, -⟩ | h)
    · omega
    · exact h
  · exact Or.inr

/-- A symbol that is written for a name of the innermost scope is what this scope binds it to, and
all other bindings stay. -/
theorem bindsAt_write {frame' : Frame σ} {other : String} {found : σ}
    (hl : ∀ other, frame'.lookup other = if other = name then some symbol else frame.lookup other) :
    BindsAt level other found (frame' :: outer) ↔
      (level = outer.length + 1 ∧ other = name) ∧ symbol = found ∨
        ¬(level = outer.length + 1 ∧ other = name) ∧
          BindsAt level other found (frame :: outer) := by
  rcases Nat.lt_or_ge outer.length level with hlt | hle
  · by_cases htop : level = outer.length + 1
    · subst htop
      rw [bindsAt_top, bindsAt_top, hl]
      by_cases hn : other = name <;> simp [hn]
    · have hnot {frame : Frame σ} : ¬BindsAt level other found (frame :: outer) := by
        intro hb
        have hlevel := hb.level_le
        rw [List.length_cons] at hlevel
        omega
      simp [htop, hnot]
  · have htop : level ≠ outer.length + 1 := by omega
    rw [bindsAt_cons_of_le hle, bindsAt_cons_of_le hle]
    simp [htop]

/-- A name means what the deepest scope that binds it says. -/
theorem findSome?_eq_some_iff {frames : List (Frame σ)} :
    frames.findSome? (·.lookup name) = some symbol ↔
      ∃ level, BindsAt level name symbol frames ∧
        ∀ inner, level < inner → ∀ other, ¬BindsAt inner name other frames := by
  induction frames with
  | nil => simp [BindsAt]
  | cons frame outer ih =>
      rw [List.findSome?_cons]
      cases hl : frame.lookup name with
      | some found =>
          constructor
          · rintro ⟨⟩
            refine ⟨outer.length + 1, bindsAt_top.mpr hl, fun inner hinner other h => ?_⟩
            exact absurd h.level_le (Nat.not_le.mpr hinner)
          · rintro ⟨level, hb, hinner⟩
            rcases hb with ⟨-, hl'⟩ | hb
            · exact hl.symm.trans hl'
            · have hlt : level < outer.length + 1 := Nat.lt_succ_of_le hb.level_le
              exact absurd (bindsAt_top.mpr hl) (hinner _ hlt found)
      | none =>
          have hskip (level : Nat) (other : σ) : BindsAt level name other (frame :: outer) ↔
              BindsAt level name other outer := by
            simp [BindsAt, hl]
          simp only [hskip]
          exact ih

theorem findSome?_eq_none_iff {frames : List (Frame σ)} :
    frames.findSome? (·.lookup name) = none ↔
      ∀ level symbol, ¬BindsAt level name symbol frames := by
  induction frames with
  | nil => simp [BindsAt]
  | cons frame outer ih =>
      rw [List.findSome?_cons]
      cases hl : frame.lookup name with
      | some found =>
          constructor
          · rintro ⟨⟩
          · exact fun hn => absurd (bindsAt_top.mpr hl) (hn _ found)
      | none => simpa [BindsAt, hl] using ih

end ScopeStack

/-! ## Stacks represent histories -/

open ScopeStack (BindsAt Effect)

/-- A stack is what a history has led to: it has as many scopes as are open, and they bind what was
last written in them. -/
structure History.LeadsTo (h : History σ) (stack : ScopeStack σ) : Prop where
  balance : stack.depth + h.closed = 1 + h.opened
  written : ∀ level name symbol,
    h.LastWritten level name symbol ↔ BindsAt level name symbol stack.frames
  declared : ∀ level name, h.Declared level name ↔ ∃ symbol, BindsAt level name symbol stack.frames

namespace History.LeadsTo

variable {h : History σ} {stack next : ScopeStack σ} {e : Event σ} {op : Operation σ}
  {answer : Answer σ}

theorem depth_eq (hs : h.LeadsTo stack) : h.depth = stack.depth := by
  have hbalance := hs.balance
  rw [History.depth]
  omega

theorem new : History.LeadsTo [] (ScopeStack.new : ScopeStack σ) := by
  have hempty (level : Nat) (name : String) (symbol : σ) :
      ¬BindsAt level name symbol (ScopeStack.new : ScopeStack σ).frames := by
    rintro (⟨-, hl⟩ | hb)
    · cases hl
    · cases hb
  refine ⟨rfl, fun level name symbol => ?_, fun level name => ?_⟩
  · refine ⟨?_, fun hb => absurd hb (hempty level name symbol)⟩
    rintro ⟨before, event, after, hin, -⟩
    simpa using hin.eq
  · refine ⟨?_, fun ⟨symbol, hb⟩ => absurd hb (hempty level name symbol)⟩
    rintro ⟨before, event, after, hin, -⟩
    simpa using hin.eq

/-- After an event that writes nothing, as much is written in the scopes that are left. -/
theorem concat_of_unwritten (hs : h.LeadsTo stack) (hw : e.written? = none)
    (hd : e.declared? = none) (hbalance : next.depth + (h ++ [e]).closed = 1 + (h ++ [e]).opened)
    (hnext : ∀ level name symbol, BindsAt level name symbol next.frames ↔
      level ≤ next.depth ∧ BindsAt level name symbol stack.frames) :
    History.LeadsTo (h ++ [e]) next := by
  have hdepth : (h ++ [e]).depth = next.depth := by
    rw [History.depth]
    omega
  refine ⟨hbalance, fun level name symbol => ?_, fun level name => ?_⟩
  · rw [lastWritten_concat, hw, hdepth, hnext, ← hs.written]
    simp
  · rw [declared_concat, hd, hdepth, hs.declared]
    simp [hnext]

/-- After an event that writes a symbol, this is what the innermost scope binds. -/
theorem concat_of_written {frame frame' : Frame σ} {outer : List (Frame σ)} {name : String}
    {symbol : σ} (hs : h.LeadsTo ⟨frame :: outer⟩) (ho : e.opens = false) (hc : e.closes = false)
    (hw : e.written? = some (name, symbol))
    (hd : e.declared? = if (frame.lookup name).isSome then none else some name)
    (hl : ∀ other, frame'.lookup other = if other = name then some symbol else frame.lookup other) :
    History.LeadsTo (h ++ [e]) ⟨frame' :: outer⟩ := by
  have hbalance : outer.length + 1 + (h ++ [e]).closed = 1 + (h ++ [e]).opened := by
    rw [closed_concat, opened_concat, ho, hc]
    exact hs.balance
  have hbefore : h.depth = outer.length + 1 := hs.depth_eq
  have hafter : (h ++ [e]).depth = outer.length + 1 := by
    rw [History.depth]
    omega
  refine ⟨hbalance, fun level other found => ?_, fun level other => ?_⟩
  · rw [lastWritten_concat, hw, hs.written, hbefore, hafter, ScopeStack.bindsAt_write hl]
    have hle (hb : BindsAt level other found (frame :: outer)) : level ≤ outer.length + 1 :=
      hb.level_le
    grind
  · rw [declared_concat, hd, hs.declared, hbefore, hafter]
    simp only [ScopeStack.bindsAt_write hl]
    by_cases hhere : level = outer.length + 1 ∧ other = name
    · obtain ⟨rfl, rfl⟩ := hhere
      simp only [ScopeStack.bindsAt_top]
      cases frame.lookup other <;> simp
    · have hle (found : σ) (hb : BindsAt level other found (frame :: outer)) :
          level ≤ outer.length + 1 := hb.level_le
      grind

/-- The effect of one more event leads from the stack before it to the stack after it. -/
theorem concat (hs : h.LeadsTo stack) (he : Effect stack e next) :
    History.LeadsTo (h ++ [e]) next := by
  have hbalance := hs.balance
  cases he with
  | none ho hc hw hd =>
      refine hs.concat_of_unwritten hw hd ?_ fun level name symbol => ?_
      · rw [closed_concat, opened_concat, ho, hc]
        exact hbalance
      · exact ⟨fun hb => ⟨hb.level_le, hb⟩, And.right⟩
  | opened =>
      refine hs.concat_of_unwritten rfl rfl ?_ fun level name symbol => ?_
      · rw [closed_concat, opened_concat]
        change stack.depth + 1 + h.closed = 1 + (h.opened + 1)
        omega
      · constructor
        · rintro (⟨-, hl⟩ | hb)
          · cases hl
          · exact ⟨Nat.le_succ_of_le hb.level_le, hb⟩
        · exact fun ⟨_, hb⟩ => Or.inr hb
  | @closed frame outer =>
      refine hs.concat_of_unwritten rfl rfl ?_ fun level name symbol => ?_
      · rw [closed_concat, opened_concat]
        change outer.length + 1 + h.closed = 1 + h.opened at hbalance
        change outer.length + (h.closed + 1) = 1 + h.opened
        omega
      · constructor
        · exact fun hb => ⟨hb.level_le, Or.inr hb⟩
        · exact fun ⟨hle, hb⟩ => (ScopeStack.bindsAt_cons_of_le hle).mp hb
  | written ho hc hw hd hl => exact hs.concat_of_written ho hc hw hd hl

/-! ## Answers -/

section Answers

variable {frame : Frame σ} {outer : List (Frame σ)} {name : String} {symbol : σ}

theorem exists_frame (hs : h.LeadsTo stack) (hd : 0 < h.depth) :
    ∃ frame outer, stack = ⟨frame :: outer⟩ := by
  rw [hs.depth_eq] at hd
  obtain ⟨frames⟩ := stack
  cases frames with
  | nil => cases hd
  | cons frame outer => exact ⟨frame, outer, rfl⟩

theorem eq_of_depth_eq_zero (hs : h.LeadsTo stack) (hd : h.depth = 0) : stack = ⟨[]⟩ := by
  rw [hs.depth_eq] at hd
  obtain ⟨frames⟩ := stack
  exact congrArg ScopeStack.mk (List.eq_nil_of_length_eq_zero hd)

theorem lastWritten_here (hs : h.LeadsTo ⟨frame :: outer⟩) :
    h.LastWritten h.depth name symbol ↔ frame.lookup name = some symbol := by
  have hdepth : h.depth = outer.length + 1 := hs.depth_eq
  rw [hs.written, hdepth, ScopeStack.bindsAt_top]

theorem declared_here (hs : h.LeadsTo ⟨frame :: outer⟩) :
    h.Declared h.depth name ↔ (frame.lookup name).isSome := by
  have hdepth : h.depth = outer.length + 1 := hs.depth_eq
  rw [hs.declared, hdepth, Option.isSome_iff_exists]
  simp only [ScopeStack.bindsAt_top]

/-- The deepest open scope in which something was written for a name decides what it means. -/
theorem lastWritten_deepest (hs : h.LeadsTo stack) :
    (∃ level, h.LastWritten level name symbol ∧
      ∀ inner, level < inner → ∀ other, ¬h.LastWritten inner name other) ↔
        stack.frames.findSome? (·.lookup name) = some symbol := by
  simp only [hs.written, ScopeStack.findSome?_eq_some_iff]

theorem lastWritten_nowhere (hs : h.LeadsTo stack) :
    (∀ level symbol, ¬h.LastWritten level name symbol) ↔
      stack.frames.findSome? (·.lookup name) = none := by
  simp only [hs.written, ScopeStack.findSome?_eq_none_iff]

/-- A declaration of a name and a symbol is answered as the history tells. -/
theorem add_of_answers (hs : h.LeadsTo stack)
    (ha : h.Answers (.add (some name) (some symbol)) answer) :
    answer = (stack.perform (.add name symbol)).1 := by
  cases ha with
  | noScopes hop hd =>
      rw [hs.eq_of_depth_eq_zero hd]
      rfl
  | taken hd ht =>
      obtain ⟨frame, outer, rfl⟩ := hs.exists_frame hd
      rw [ScopeStack.perform_add_some, if_pos (hs.declared_here.mp ht)]
  | added hd hf =>
      obtain ⟨frame, outer, rfl⟩ := hs.exists_frame hd
      rw [ScopeStack.perform_add_some, if_neg (mt hs.declared_here.mpr hf)]

/-- After a history the stack that it has led to answers as the history tells. -/
theorem answer_of_answers (hs : h.LeadsTo stack) (ha : h.Answers op answer) :
    answer = (stack.perform op).1 := by
  cases ha with
  | push => rfl
  | noScopes hop hd =>
      rw [hs.eq_of_depth_eq_zero hd]
      cases op with
      | push => exact absurd rfl hop
      | _ => rfl
  | pop hd =>
      obtain ⟨frame, outer, rfl⟩ := hs.exists_frame hd
      rfl
  | missingBoth hd | missingName hd | missingSymbol hd =>
      obtain ⟨frame, outer, rfl⟩ := hs.exists_frame hd
      rfl
  | taken hd ht => exact hs.add_of_answers (.taken hd ht)
  | added hd hf => exact hs.add_of_answers (.added hd hf)
  | declare ha => exact hs.add_of_answers ha
  | foundLocal hd hw =>
      obtain ⟨frame, outer, rfl⟩ := hs.exists_frame hd
      rw [hs.lastWritten_here] at hw
      exact congrArg Answer.found hw.symm
  | notLocal hd hn =>
      obtain ⟨frame, outer, rfl⟩ := hs.exists_frame hd
      simp only [hs.lastWritten_here] at hn
      exact congrArg Answer.found (Option.eq_none_iff_forall_ne_some.mpr hn).symm
  | found hd hw hinner =>
      obtain ⟨frame, outer, rfl⟩ := hs.exists_frame hd
      have hfound := hs.lastWritten_deepest.mp ⟨_, hw, hinner⟩
      exact congrArg Answer.found hfound.symm
  | notFound hd hn =>
      obtain ⟨frame, outer, rfl⟩ := hs.exists_frame hd
      exact congrArg Answer.found (hs.lastWritten_nowhere.mp hn).symm
  | replaced hd ht =>
      obtain ⟨frame, outer, rfl⟩ := hs.exists_frame hd
      rw [ScopeStack.perform_overwrite, hs.declared_here.mp ht]
  | notReplaced hd hf =>
      obtain ⟨frame, outer, rfl⟩ := hs.exists_frame hd
      rw [ScopeStack.perform_overwrite, Bool.eq_false_iff.mpr (mt hs.declared_here.mpr hf)]

/-- A history that has led to a stack has an answer to everything. -/
theorem exists_answers (hs : h.LeadsTo stack) (op : Operation σ) :
    ∃ answer, h.Answers op answer := by
  rcases Nat.eq_zero_or_pos h.depth with hd | hd
  · by_cases hop : op = .push
    · rw [hop]
      exact ⟨_, .push⟩
    · exact ⟨_, .noScopes hop hd⟩
  have hadd (name : String) (symbol : σ) :
      ∃ answer, h.Answers (.add (some name) (some symbol)) answer := by
    by_cases ht : h.Declared h.depth name
    · exact ⟨_, .taken hd ht⟩
    · exact ⟨_, .added hd ht⟩
  cases op with
  | add name? symbol? =>
      rcases name? with _ | name <;> rcases symbol? with _ | symbol
      · exact ⟨_, .missingBoth hd⟩
      · exact ⟨_, .missingName hd⟩
      · exact ⟨_, .missingSymbol hd⟩
      · exact hadd name symbol
  | declare name symbol =>
      obtain ⟨answer, ha⟩ := hadd name symbol
      exact ⟨answer, .declare ha⟩
  | push => exact ⟨_, .push⟩
  | pop => exact ⟨_, .pop hd⟩
  | lookupLocal name =>
      by_cases hw : ∃ symbol, h.LastWritten h.depth name symbol
      · obtain ⟨symbol, hw⟩ := hw
        exact ⟨_, .foundLocal hd hw⟩
      · exact ⟨_, .notLocal hd (not_exists.mp hw)⟩
  | lookup name =>
      cases hf : stack.frames.findSome? (·.lookup name) with
      | some symbol =>
          obtain ⟨level, hw, hinner⟩ := hs.lastWritten_deepest.mpr hf
          exact ⟨_, .found hd hw hinner⟩
      | none => exact ⟨_, .notFound hd (hs.lastWritten_nowhere.mpr hf)⟩
  | overwrite name symbol =>
      by_cases ht : h.Declared h.depth name
      · exact ⟨_, .replaced hd ht⟩
      · exact ⟨_, .notReplaced hd ht⟩

/-- The history tells one answer, and the stack gives it. -/
theorem answers_iff (hs : h.LeadsTo stack) :
    h.Answers op answer ↔ answer = (stack.perform op).1 := by
  refine ⟨hs.answer_of_answers, ?_⟩
  rintro rfl
  obtain ⟨answer, ha⟩ := hs.exists_answers op
  rwa [← hs.answer_of_answers ha]

end Answers

/-- One more operation leads from the stack before it to the stack after it. -/
theorem perform (hs : h.LeadsTo stack) (op : Operation σ) :
    History.LeadsTo (h ++ [⟨op, (stack.perform op).1⟩]) (stack.perform op).2 :=
  hs.concat (stack.effect_perform op)

/-- Operations lead from the stack before them to the stack after them. -/
theorem run (hs : h.LeadsTo stack) (ops : List (Operation σ)) :
    History.LeadsTo (h ++ (stack.run ops).1) (stack.run ops).2 := by
  induction ops generalizing h stack with
  | nil => simpa [ScopeStack.run] using hs
  | cons op ops ih =>
      have hrest := ih (hs.perform op)
      rwa [List.append_assoc] at hrest

end History.LeadsTo

/-! ## Runs -/

namespace ScopeStack

variable {before after : History σ} {event : Event σ}

theorem operations_run (stack : ScopeStack σ) (ops : List (Operation σ)) :
    (stack.run ops).1.map Event.operation = ops := by
  induction ops generalizing stack with
  | nil => rfl
  | cons op ops ih => exact congrArg (op :: ·) (ih _)

theorem run_append (stack : ScopeStack σ) (first second : List (Operation σ)) :
    stack.run (first ++ second) =
      ((stack.run first).1 ++ ((stack.run first).2.run second).1,
        ((stack.run first).2.run second).2) := by
  induction first generalizing stack with
  | nil => rfl
  | cons op first ih => simp only [List.cons_append, run, ih]

/-- An event of a run is what the stack answers to which the operations before it lead. -/
theorem run_split {stack last : ScopeStack σ} {ops : List (Operation σ)}
    (h : stack.run ops = (before ++ event :: after, last)) :
    ∃ middle, stack.run (before.map Event.operation) = (before, middle) ∧
      event.answer = (middle.perform event.operation).1 ∧
      (middle.perform event.operation).2.run (after.map Event.operation) = (after, last) := by
  have hops : ops = before.map Event.operation ++ event.operation :: after.map Event.operation := by
    have hmap := stack.operations_run ops
    rw [h, List.map_append, List.map_cons] at hmap
    exact hmap.symm
  rw [hops, run_append] at h
  obtain ⟨hevents, hlast⟩ := Prod.mk.inj h
  have hlength : (stack.run (before.map Event.operation)).1.length = before.length := by
    rw [← List.length_map Event.operation, operations_run, List.length_map]
  obtain ⟨hbefore, hafter⟩ := List.append_inj hevents hlength
  obtain ⟨hevent, hafter⟩ := List.cons.inj hafter
  refine ⟨_, Prod.ext hbefore rfl, ?_, Prod.ext hafter hlast⟩
  exact congrArg Event.answer hevent.symm

/-- Every answer is determined by the history.  In a run from the stack with one empty scope,
each operation is answered as the events before it tell; the open scopes are the first one and those
that were opened and not closed; and all other events stay as they are without one that has failed
or only looked something up. -/
theorem history_determines {ops : List (Operation σ)} {history : History σ} {last : ScopeStack σ}
    (h : new.run ops = (history, last)) :
    history.map Event.operation = ops ∧ last.depth + history.closed = 1 + history.opened ∧
      ∀ before event after, history = before ++ event :: after →
        (∀ answer, History.Answers before event.operation answer ↔ answer = event.answer) ∧
        (event.operation.looks = true ∨ event.answer.fails = true →
          new.run (before.map Event.operation ++ after.map Event.operation) =
            (before ++ after, last)) := by
  have hleads : History.LeadsTo history last := by
    have hrun := History.LeadsTo.new.run ops
    rwa [h] at hrun
  refine ⟨?_, hleads.balance, ?_⟩
  · have hops := new.operations_run ops
    rwa [h] at hops
  · rintro before event after rfl
    obtain ⟨middle, hbefore, hanswer, hafter⟩ := run_split h
    have hmiddle : History.LeadsTo before middle := by
      have hrun := History.LeadsTo.new.run (before.map Event.operation)
      rwa [hbefore] at hrun
    refine ⟨fun answer => ?_, fun hidle => ?_⟩
    · rw [hmiddle.answers_iff, hanswer]
    · rw [hanswer] at hidle
      rw [perform_of_idle hidle] at hafter
      rw [run_append, hbefore, hafter]

/-- A name of an outer scope is declared again in an inner one, and a second time in vain: this is
refused, and all is as if it had not been tried. -/
theorem history_determines_duplicate :
    (new : ScopeStack Ty).run [.declare "x" .int, .push, .declare "x" .bool, .declare "x" .void,
        .overwrite "x" .void, .pop, .lookup "x"] =
      ([⟨.declare "x" .int, .done⟩, ⟨.push, .done⟩, ⟨.declare "x" .bool, .done⟩,
        ⟨.declare "x" .void, .refused (.duplicate "x")⟩, ⟨.overwrite "x" .void, .replaced true⟩,
        ⟨.pop, .done⟩, ⟨.lookup "x", .found (some .int)⟩], ofFrame ⟨[("x", .int)]⟩) ∧
    (∀ answer : Answer Ty, History.Answers
        [⟨.declare "x" .int, .done⟩, ⟨.push, .done⟩, ⟨.declare "x" .bool, .done⟩]
        (.declare "x" .void) answer ↔ answer = .refused (.duplicate "x")) ∧
    (new : ScopeStack Ty).run [.declare "x" .int, .push, .declare "x" .bool,
        .overwrite "x" .void, .pop, .lookup "x"] =
      ([⟨.declare "x" .int, .done⟩, ⟨.push, .done⟩, ⟨.declare "x" .bool, .done⟩,
        ⟨.overwrite "x" .void, .replaced true⟩, ⟨.pop, .done⟩,
        ⟨.lookup "x", .found (some .int)⟩], ofFrame ⟨[("x", .int)]⟩) := by
  refine ⟨rfl, ?_⟩
  obtain ⟨-, -, hevents⟩ := @history_determines Ty [.declare "x" .int, .push,
    .declare "x" .bool, .declare "x" .void, .overwrite "x" .void, .pop, .lookup "x"] _ _ rfl
  obtain ⟨hanswers, hidle⟩ := hevents
    [⟨.declare "x" .int, .done⟩, ⟨.push, .done⟩, ⟨.declare "x" .bool, .done⟩] _ _ rfl
  exact ⟨hanswers, hidle (Or.inr rfl)⟩

end ScopeStack

end NameCheck
