import Mathlib.Data.List.Infix
import NameCheck.Proofs.Scope.History

/-!
# A closed scope leaves nothing behind

Whatever is done between the opening of a scope and its closing, as long as it closes no other
scopes than it has opened: all that is declared and overwritten is in scopes that are opened inside,
and the scopes around are found again as they were.
-/

namespace NameCheck.ScopeStack

variable {σ : Type}

/-! ## Brackets -/

namespace Operation

/-- Whether an operation opens a scope. -/
def opens : Operation σ → Bool
  | .push => true
  | .add _ _ | .declare _ _ | .pop | .lookupLocal _ | .lookup _ | .overwrite _ _ => false

/-- Whether an operation closes a scope. -/
def closes : Operation σ → Bool
  | .pop => true
  | .add _ _ | .declare _ _ | .push | .lookupLocal _ | .lookup _ | .overwrite _ _ => false

end Operation

/-- Operations that at no moment have closed more scopes than they have opened, and that leave none
of these open. -/
structure Nested (ops : List (Operation σ)) : Prop where
  within : ∀ before, before <+: ops →
    before.countP Operation.closes ≤ before.countP Operation.opens
  settled : ops.countP Operation.closes = ops.countP Operation.opens

theorem nested_iff {ops : List (Operation σ)} : Nested ops ↔
    (∀ before ∈ ops.inits, before.countP Operation.closes ≤ before.countP Operation.opens) ∧
      ops.countP Operation.closes = ops.countP Operation.opens := by
  simp only [List.mem_inits]
  exact ⟨fun h => ⟨h.within, h.settled⟩, fun ⟨hwithin, hsettled⟩ => ⟨hwithin, hsettled⟩⟩

instance (ops : List (Operation σ)) : Decidable (Nested ops) :=
  decidable_of_iff' _ nested_iff

/-- A stack has `n` scopes open inside those of another one. -/
def Above (stack : ScopeStack σ) (n : Nat) (base : ScopeStack σ) : Prop :=
  ∃ inner, inner.length = n ∧ stack.frames = inner ++ base.frames

/-! ## One operation -/

variable {stack next base : ScopeStack σ} {event : Event σ} {ops inner : List (Operation σ)}
variable {n : Nat}

theorem Above.exists_frame (h : stack.Above (n + 1) base) :
    ∃ frame inner, inner.length = n ∧ stack = ⟨frame :: (inner ++ base.frames)⟩ := by
  obtain ⟨inner, hlength, hframes⟩ := h
  obtain ⟨frame, inner, rfl⟩ := List.exists_cons_of_length_eq_add_one hlength
  exact ⟨frame, inner, Nat.succ.inj hlength, congrArg mk hframes⟩

/-- With a scope open inside those of another stack, no effect reaches these. -/
theorem Effect.above (he : Effect stack event next) (h : stack.Above (n + 1) base) :
    ∃ m, next.Above m base ∧
      m + [event].countP Event.closes = n + 1 + [event].countP Event.opens := by
  obtain ⟨frame, inner, hlength, rfl⟩ := h.exists_frame
  cases he with
  | none ho hc =>
      refine ⟨n + 1, h, ?_⟩
      simp [ho, hc]
  | opened => exact ⟨n + 2, ⟨.empty :: frame :: inner, by simp [hlength], rfl⟩, rfl⟩
  | closed => exact ⟨n, ⟨inner, hlength, rfl⟩, rfl⟩
  | @written _ frame' _ _ _ _ ho hc =>
      refine ⟨n + 1, ⟨frame' :: inner, by simp [hlength], rfl⟩, ?_⟩
      simp [ho, hc]

theorem opens_perform (stack : ScopeStack σ) (op : Operation σ) :
    (⟨op, (stack.perform op).1⟩ : Event σ).opens = op.opens := by
  cases op <;> rfl

/-- Where a scope is open, it is closed when this is asked for. -/
theorem Above.closes_perform (h : stack.Above (n + 1) base) (op : Operation σ) :
    (⟨op, (stack.perform op).1⟩ : Event σ).closes = op.closes := by
  obtain ⟨frame, inner, -, rfl⟩ := h.exists_frame
  cases op <;> rfl

theorem Above.perform (h : stack.Above (n + 1) base) (op : Operation σ) :
    ∃ m, (stack.perform op).2.Above m base ∧
      m + [op].countP Operation.closes = n + 1 + [op].countP Operation.opens := by
  obtain ⟨m, hnext, hcount⟩ := (stack.effect_perform op).above h
  refine ⟨m, hnext, ?_⟩
  rwa [List.countP_singleton, List.countP_singleton, h.closes_perform, opens_perform,
    ← List.countP_singleton, ← List.countP_singleton] at hcount

/-! ## Several operations -/

/-- The scopes that are open inside are those that were open there and those that the operations
have opened, less those that they have closed. -/
theorem Above.run (h : stack.Above (n + 1) base)
    (hops : ∀ before, before <+: ops →
      before.countP Operation.closes ≤ n + before.countP Operation.opens) :
    ∃ m, (stack.run ops).2.Above (m + 1) base ∧
      m + ops.countP Operation.closes = n + ops.countP Operation.opens := by
  induction ops generalizing stack n with
  | nil => exact ⟨n, h, rfl⟩
  | cons op ops ih =>
      obtain ⟨m, hnext, hcount⟩ := h.perform op
      have hfirst := hops [op] (List.prefix_append [op] ops)
      obtain ⟨m, rfl⟩ : ∃ k, m = k + 1 := ⟨m - 1, by omega⟩
      have hrest : ∀ before, before <+: ops →
          before.countP Operation.closes ≤ m + before.countP Operation.opens := by
        intro before hbefore
        have hcons := hops (op :: before) (List.cons_prefix_cons.mpr ⟨rfl, hbefore⟩)
        rw [← List.singleton_append, List.countP_append, List.countP_append] at hcons
        omega
      obtain ⟨k, hlast, hsettled⟩ := ih hnext hrest
      refine ⟨k, hlast, ?_⟩
      rw [← List.singleton_append, List.countP_append, List.countP_append]
      omega

theorem Nested.above_run (h : Nested ops) (hstack : stack.Above 1 base) :
    (stack.run ops).2.Above 1 base := by
  obtain ⟨m, hlast, hcount⟩ := hstack.run (n := 0) (by simpa using h.within)
  rw [h.settled] at hcount
  obtain rfl : m = 0 := by omega
  exact hlast

/-- A closed scope leaves the enclosing ones as they were.  Between the opening of a scope and
its closing there may be any operations that close no other scopes than they have opened.  Opening
and closing succeed, the stack is in the end what it was, and at every moment before the closing the
scopes of this stack are still there, unchanged and below at least one other. -/
theorem closed_scope_leaves_nothing (h : Nested inner) (stack : ScopeStack σ) :
    (∃ events, stack.run (.push :: inner ++ [.pop]) =
        (⟨.push, .done⟩ :: events ++ [⟨.pop, .done⟩], stack)) ∧
      ∀ before, before <+: inner →
        ∃ opened, opened ≠ [] ∧
          (stack.run (.push :: before)).2.frames = opened ++ stack.frames := by
  have hpush : stack.push.Above 1 stack := ⟨[.empty], rfl, rfl⟩
  constructor
  · have hlast := h.above_run hpush
    obtain ⟨frame, opened, hlength, hframes⟩ := hlast.exists_frame
    obtain rfl := List.eq_nil_of_length_eq_zero hlength
    refine ⟨(stack.push.run inner).1, ?_⟩
    change ((⟨.push, .done⟩ : Event σ) :: (stack.push.run (inner ++ [.pop])).1,
      (stack.push.run (inner ++ [.pop])).2) = _
    rw [run_append, hframes]
    rfl
  · intro before hbefore
    have hwithin : ∀ earlier, earlier <+: before →
        earlier.countP Operation.closes ≤ 0 + earlier.countP Operation.opens := by
      intro earlier hearlier
      rw [Nat.zero_add]
      exact h.within earlier (hearlier.trans hbefore)
    obtain ⟨m, ⟨opened, hlength, hframes⟩, -⟩ := hpush.run hwithin
    refine ⟨opened, ?_, hframes⟩
    rintro rfl
    cases hlength

/-- Inside a scope, a name of an outer one is bound anew and overwritten, bound a second time in
vain, and bound once more in a scope further inside; then its first binding is there again. -/
theorem closed_scope_leaves_nothing_of_shadowing :
    Nested [.declare "x" .bool, .overwrite "x" .void, .declare "x" .string, .push,
        .declare "x" .string, .lookup "y", .pop, (.add none none : Operation Ty)] ∧
      ∃ events, (ofFrame ⟨[("x", Ty.int)]⟩).run
          [.push, .declare "x" .bool, .overwrite "x" .void, .declare "x" .string, .push,
            .declare "x" .string, .lookup "y", .pop, .add none none, .pop] =
        (⟨.push, .done⟩ :: events ++ [⟨.pop, .done⟩], ofFrame ⟨[("x", Ty.int)]⟩) := by
  have hnested : Nested [.declare "x" .bool, .overwrite "x" .void, .declare "x" .string, .push,
      .declare "x" .string, .lookup "y", .pop, (.add none none : Operation Ty)] := by
    decide
  exact ⟨hnested, (closed_scope_leaves_nothing hnested (ofFrame ⟨[("x", Ty.int)]⟩)).1⟩

end NameCheck.ScopeStack
