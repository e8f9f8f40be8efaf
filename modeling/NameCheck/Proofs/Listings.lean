import Mathlib.Data.List.Perm.Basic

/-!
# Listings

A list of bindings in which no key occurs twice stands for the same bindings in whatever order it
has them: what is found for a key does not depend on it, and sorted by their keys the bindings
strictly increase.
-/

namespace NameCheck

variable {κ σ : Type} {entries others : List (κ × σ)} {key : κ} {symbol : σ}

/-! ## Lookup -/

section Lookup

variable [BEq κ] [LawfulBEq κ]

theorem mem_of_lookup (h : entries.lookup key = some symbol) : (key, symbol) ∈ entries := by
  obtain ⟨before, after, rfl, -⟩ := List.lookup_eq_some_iff.mp h
  exact List.mem_append_right before List.mem_cons_self

/-- In a list in which no key occurs twice, lookup is membership. -/
theorem lookup_eq_some_iff_mem (h : (entries.map Prod.fst).Nodup) :
    entries.lookup key = some symbol ↔ (key, symbol) ∈ entries := by
  refine ⟨mem_of_lookup, fun hmem => ?_⟩
  obtain ⟨before, after, rfl⟩ := List.append_of_mem hmem
  rw [List.map_append, List.map_cons] at h
  refine List.lookup_eq_some_iff.mpr ⟨before, after, rfl, fun entry hentry => ?_⟩
  have hne := (List.nodup_append.mp h).2.2 entry.1 (List.mem_map_of_mem hentry) key
    List.mem_cons_self
  exact bne_iff_ne.mpr hne.symm

theorem lookup_perm (h : entries.Perm others) (hnodup : (entries.map Prod.fst).Nodup) (key : κ) :
    entries.lookup key = others.lookup key := by
  have hnodup' : (others.map Prod.fst).Nodup := (h.map Prod.fst).nodup hnodup
  refine Option.ext fun symbol => ?_
  rw [lookup_eq_some_iff_mem hnodup, lookup_eq_some_iff_mem hnodup', h.mem_iff]

end Lookup

/-! ## Sorting -/

/-- Bindings of different keys strictly increase when they are sorted by their keys. -/
theorem pairwise_mergeSort_of_nodup (le : κ → κ → Bool) {lt : κ → κ → Prop}
    (htrans : ∀ a b c, le a b = true → le b c = true → le a c = true)
    (htotal : ∀ a b, (le a b || le b a) = true)
    (hlt : ∀ {a b}, le a b = true → a ≠ b → lt a b) (h : (entries.map Prod.fst).Nodup) :
    (entries.mergeSort fun a b => le a.1 b.1).Pairwise fun a b => lt a.1 b.1 := by
  have hperm : (entries.mergeSort fun a b => le a.1 b.1).Perm entries := List.mergeSort_perm _ _
  have hkeys : (entries.mergeSort fun a b => le a.1 b.1).Pairwise fun a b => a.1 ≠ b.1 :=
    List.pairwise_map.mp ((hperm.map Prod.fst).nodup_iff.mpr h)
  have hsorted : (entries.mergeSort fun a b => le a.1 b.1).Pairwise fun a b =>
      le a.1 b.1 = true :=
    List.pairwise_mergeSort (fun (a b c : κ × σ) => htrans a.1 b.1 c.1)
      (fun (a b : κ × σ) => htotal a.1 b.1) entries
  exact hsorted.imp₂ (fun _ _ => hlt) hkeys

end NameCheck
