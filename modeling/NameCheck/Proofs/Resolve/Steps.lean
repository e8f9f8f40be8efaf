import NameCheck.Resolve.Analysis

/-!
# Steps of an analysis, one after another

How runs and trails of steps are put together from those of their parts.
-/

namespace NameCheck.Resolve

variable {α β : Type} {s s' t : Analysis}

theorem bind_eq (x : Resolve α) (k : α → Resolve β) : x >>= k = x.bind k := rfl

/-! ## Runs -/

@[simp]
theorem exec_pure (a : α) (s : Analysis) : (pure a : Resolve α).exec s = (.ok a, s) := rfl

theorem exec_bind (x : Resolve α) (k : α → Resolve β) (s : Analysis) :
    (x >>= k).exec s =
      match x.exec s with
      | (.ok a, s') => (k a).exec s'
      | (.error error, s') => (.error error, s') := by
  rw [bind_eq]
  induction x generalizing s with
  | done a => rfl
  | stop error => rfl
  | look next ih => exact ih s s
  | change f next ih => exact ih (f s)

theorem exec_bind_of_ok {x : Resolve α} {k : α → Resolve β} {a : α}
    (h : x.exec s = (.ok a, s')) : (x >>= k).exec s = (k a).exec s' := by
  rw [exec_bind, h]

@[simp]
theorem exec_state (s : Analysis) : state.exec s = (.ok s, s) := rfl

@[simp]
theorem exec_ofExcept (result : Except ScopeError α) (s : Analysis) :
    (ofExcept result).exec s = (result, s) := by
  cases result <;> rfl

@[simp]
theorem exec_report (error : SemanticError) (s : Analysis) :
    (report error).exec s = (.ok (), { s with errors := s.errors ++ [error] }) := rfl

@[simp]
theorem exec_record (pos : Position) (symbol : Symbol) (s : Analysis) :
    (record pos symbol).exec s =
      (.ok (), { s with resolutions := s.resolutions.record pos symbol }) := rfl

@[simp]
theorem exec_setScopes (scopes : ScopeStack Symbol) (s : Analysis) :
    (setScopes scopes).exec s = (.ok (), { s with scopes }) := rfl

@[simp]
theorem exec_foundOr_some (error : SemanticError) (symbol : Symbol) (s : Analysis) :
    (foundOr error (some symbol)).exec s = (.ok symbol, s) := rfl

@[simp]
theorem exec_foundOr_none (error : SemanticError) (s : Analysis) :
    (foundOr error none).exec s = (.ok .undefined, { s with errors := s.errors ++ [error] }) :=
  rfl

theorem exec_thenStop {error : ScopeError} (x : Resolve α) (s : Analysis) :
    (x.thenStop error : Resolve β).exec s = (.error error, (x.exec s).2) := by
  induction x generalizing s with
  | done a => rfl
  | stop error' => rfl
  | look next ih => exact ih s s
  | change f next ih => exact ih (f s)

/-- The last step is taken in any case, and only the error before it goes before its own. -/
theorem exec_ensuring (x : Resolve α) (last : Resolve Unit) (s : Analysis) :
    (x.ensuring last).exec s =
      match x.exec s with
      | (.ok a, s') => (last >>= fun _ => pure a).exec s'
      | (.error error, s') => (.error error, (last.exec s').2) := by
  induction x generalizing s with
  | done a => rfl
  | stop error => exact exec_thenStop last s
  | look next ih => exact ih s s
  | change f next ih => exact ih (f s)

theorem run_ok_iff {x : Resolve α} {a : α} :
    x.run s = .ok (a, s') ↔ x.exec s = (.ok a, s') := by
  rw [run]
  obtain ⟨result, s''⟩ := x.exec s
  cases result <;> simp

/-! ## Trails -/

theorem exec_mem_trail (x : Resolve α) (s : Analysis) : (x.exec s).2 ∈ x.trail s := by
  induction x generalizing s with
  | done a => exact List.mem_cons_self
  | stop error => exact List.mem_cons_self
  | look next ih => exact ih s s
  | change f next ih => exact List.mem_cons_of_mem _ (ih (f s))

/-- The states of one thing after another are those of the first and, if it ends with a value,
those of the second. -/
theorem mem_trail_bind {x : Resolve α} {k : α → Resolve β} (h : t ∈ (x >>= k).trail s) :
    t ∈ x.trail s ∨ ∃ a s', x.exec s = (.ok a, s') ∧ t ∈ (k a).trail s' := by
  rw [bind_eq] at h
  induction x generalizing s with
  | done a => exact Or.inr ⟨a, s, rfl, h⟩
  | stop error => exact Or.inl h
  | look next ih => exact ih s h
  | change f next ih =>
      rcases List.mem_cons.mp h with rfl | h
      · exact Or.inl List.mem_cons_self
      · exact (ih h).imp_left (List.mem_cons_of_mem _)

theorem mem_trail_thenStop {x : Resolve α} {error : ScopeError}
    (h : t ∈ (x.thenStop error : Resolve β).trail s) : t ∈ x.trail s := by
  induction x generalizing s with
  | done a => exact h
  | stop error' => exact h
  | look next ih => exact ih s h
  | change f next ih =>
      rcases List.mem_cons.mp h with rfl | h
      · exact List.mem_cons_self
      · exact List.mem_cons_of_mem _ (ih h)

/-- A last step adds its own states to the trail, from wherever the steps before it ended. -/
theorem mem_trail_ensuring {x : Resolve α} {last : Resolve Unit}
    (h : t ∈ (x.ensuring last).trail s) : t ∈ x.trail s ∨ t ∈ last.trail (x.exec s).2 := by
  induction x generalizing s with
  | done a =>
      rcases mem_trail_bind h with h | ⟨_, s', hs', h⟩
      · exact Or.inr h
      · obtain rfl : t = s' := List.mem_singleton.mp h
        have hlast := exec_mem_trail last s
        rw [hs'] at hlast
        exact Or.inr hlast
  | stop error => exact Or.inr (mem_trail_thenStop h)
  | look next ih => exact ih s h
  | change f next ih =>
      rcases List.mem_cons.mp h with rfl | h
      · exact Or.inl List.mem_cons_self
      · exact (ih h).imp_left (List.mem_cons_of_mem _)

/-! ## Closing a scope -/

section Close

variable {scopes : ScopeStack Symbol} (h : s.scopes.pop = .ok scopes)
include h

theorem exec_close : (onScopes fun scopes => ofExcept scopes.pop).exec s =
    (.ok (), { s with scopes }) := by
  simp only [onScopes, exec_bind, exec_state, exec_ofExcept, h, exec_setScopes]

theorem trail_close : (onScopes fun scopes => ofExcept scopes.pop).trail s =
    [s, { s with scopes }] := by
  change ((ofExcept s.scopes.pop).bind setScopes).trail s = _
  rw [h]
  rfl

end Close

end NameCheck.Resolve
