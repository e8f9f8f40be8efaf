import NameCheck.Scope.Stack

/-!
# What is bound in a stack

A property of all symbols that a frame or a stack binds, and how the operations on stacks keep it.
With at least one frame open no operation is refused for want of a scope.
-/

namespace NameCheck

variable {σ : Type} {P : σ → Prop} {name : String} {symbol : σ}

namespace Frame

variable {frame frame' : Frame σ}

/-- All symbols that a frame binds have a property. -/
def All (P : σ → Prop) (frame : Frame σ) : Prop :=
  ∀ entry ∈ frame.entries, P entry.2

theorem All.empty : (Frame.empty : Frame σ).All P := by
  intro entry hentry
  cases hentry

theorem All.cons (h : frame.All P) (hs : P symbol) :
    (Frame.mk ((name, symbol) :: frame.entries)).All P := by
  intro entry hentry
  rcases List.mem_cons.mp hentry with rfl | hentry
  · exact hs
  · exact h entry hentry

theorem All.lookup (h : frame.All P) (hl : frame.lookup name = some symbol) : P symbol := by
  obtain ⟨entries⟩ := frame
  induction entries with
  | nil => cases hl
  | cons entry entries ih =>
      rw [lookup_cons] at hl
      by_cases hn : name = entry.1
      · rw [if_pos hn] at hl
        cases hl
        exact h entry List.mem_cons_self
      · rw [if_neg hn] at hl
        exact ih (fun entry hentry => h entry (List.mem_cons_of_mem _ hentry)) hl

theorem All.declare? (h : frame.All P) (hs : P symbol)
    (hd : frame.declare? name symbol = some frame') : frame'.All P := by
  obtain ⟨-, rfl⟩ := declare?_eq_some_iff.mp hd
  exact h.cons hs

theorem All.replace? (h : frame.All P) (hs : P symbol)
    (hr : frame.replace? name symbol = some frame') : frame'.All P := by
  obtain ⟨entries⟩ := frame
  simp only [Frame.replace?, Option.map_eq_some_iff] at hr
  obtain ⟨entries', hr, rfl⟩ := hr
  induction entries generalizing entries' with
  | nil => cases hr
  | cons entry entries ih =>
      have htail : (Frame.mk entries).All P :=
        fun entry hentry => h entry (List.mem_cons_of_mem _ hentry)
      rw [replaceIn?] at hr
      by_cases hn : name = entry.1
      · rw [if_pos hn] at hr
        cases hr
        exact htail.cons hs
      · rw [if_neg hn] at hr
        obtain ⟨tail, ht, rfl⟩ := Option.map_eq_some_iff.mp hr
        intro e he
        rcases List.mem_cons.mp he with rfl | he
        · exact h e List.mem_cons_self
        · exact ih htail tail ht e he

end Frame

namespace ScopeStack

variable {stack stack' : ScopeStack σ} {d : Nat}

/-- All symbols that a stack binds have a property. -/
def All (P : σ → Prop) (stack : ScopeStack σ) : Prop :=
  ∀ frame ∈ stack.frames, frame.All P

theorem All.new : (ScopeStack.new : ScopeStack σ).All P := by
  intro frame hframe
  obtain rfl : frame = .empty := List.mem_singleton.mp hframe
  exact Frame.All.empty

theorem All.push (h : stack.All P) : stack.push.All P := by
  intro frame hframe
  rcases List.mem_cons.mp hframe with rfl | hframe
  · exact Frame.All.empty
  · exact h frame hframe

theorem All.pop (h : stack.All P) (hp : stack.pop = .ok stack') : stack'.All P := by
  obtain ⟨frames⟩ := stack
  cases frames with
  | nil => cases hp
  | cons frame outer =>
      cases hp
      exact fun frame hframe => h frame (List.mem_cons_of_mem _ hframe)

/-! ## Operations on a stack with open scopes -/

theorem pop_of_depth (h : stack.depth = d + 1) : ∃ stack', stack.pop = .ok stack' ∧
    stack'.depth = d := by
  obtain ⟨frames⟩ := stack
  cases frames with
  | nil => cases h
  | cons frame outer => exact ⟨⟨outer⟩, rfl, Nat.succ.inj h⟩

theorem lookupLocal_of_depth (h : stack.depth = d + 1) (name : String) :
    ∃ found, stack.lookupLocal name = .ok found := by
  obtain ⟨frames⟩ := stack
  cases frames with
  | nil => cases h
  | cons frame outer => exact ⟨frame.lookup name, rfl⟩

theorem lookup_of_depth (h : stack.depth = d + 1) (name : String) :
    ∃ found, stack.lookup name = .ok found := by
  obtain ⟨frames⟩ := stack
  cases frames with
  | nil => cases h
  | cons frame outer => exact ⟨_, rfl⟩

theorem All.lookup (h : stack.All P) (hl : stack.lookup name = .ok (some symbol)) :
    P symbol := by
  obtain ⟨frames⟩ := stack
  cases frames with
  | nil => cases hl
  | cons frame outer =>
      obtain ⟨frame', hframe, hl⟩ := List.exists_of_findSome?_eq_some (Except.ok.inj hl)
      exact (h frame' hframe).lookup hl

/-- With a scope open, a declaration binds its name or finds it taken. -/
theorem declare_of_depth (h : stack.depth = d + 1) (hall : stack.All P) (hs : P symbol)
    (name : String) :
    (∃ stack', stack.declare name symbol = .ok stack' ∧ stack'.depth = d + 1 ∧ stack'.All P) ∨
      stack.declare name symbol = .error (.duplicate name) := by
  obtain ⟨frames⟩ := stack
  cases frames with
  | nil => cases h
  | cons frame outer =>
      cases hd : frame.declare? name symbol with
      | none => exact Or.inr (by simp [declare, add, hd])
      | some frame' =>
          refine Or.inl ⟨⟨frame' :: outer⟩, by simp [declare, add, hd], h, ?_⟩
          intro f hf
          rcases List.mem_cons.mp hf with rfl | hf
          · exact (hall frame List.mem_cons_self).declare? hs hd
          · exact hall f (List.mem_cons_of_mem _ hf)

/-- With a scope open, a replacement keeps the depth. -/
theorem replaceLocal_of_depth (h : stack.depth = d + 1) (hall : stack.All P) (hs : P symbol)
    (name : String) :
    ∃ result, stack.replaceLocal name symbol = .ok result ∧
      ∀ stack' ∈ result, stack'.depth = d + 1 ∧ stack'.All P := by
  obtain ⟨frames⟩ := stack
  cases frames with
  | nil => cases h
  | cons frame outer =>
      refine ⟨_, rfl, fun stack' hstack => ?_⟩
      obtain ⟨frame', hr, rfl⟩ := Option.map_eq_some_iff.mp hstack
      refine ⟨h, fun f hf => ?_⟩
      rcases List.mem_cons.mp hf with rfl | hf
      · exact (hall frame List.mem_cons_self).replace? hs hr
      · exact hall f (List.mem_cons_of_mem _ hf)

end ScopeStack

end NameCheck
