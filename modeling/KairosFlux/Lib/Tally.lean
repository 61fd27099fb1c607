import Mathlib.Tactic

/-! Sums over a list of which one member changes. -/

namespace KairosFlux.Lib

variable {Item : Type} (weight : Item → Nat)

def tally (items : List Item) : Nat := (items.map weight).sum

theorem tally_set {items : List Item} {i : Nat} {old : Item} (found : items[i]? = some old)
    (new : Item) : tally weight (items.set i new) + weight old = tally weight items + weight new := by
  induction items generalizing i with
  | nil => simp at found
  | cons item rest ih =>
    cases i with
    | zero =>
      cases found
      simp [tally]
      omega
    | succ i =>
      have rest := ih found
      simp only [tally, List.set_cons_succ, List.map_cons, List.sum_cons] at rest ⊢
      omega

theorem tally_pos_iff {items : List Item} : 0 < tally weight items ↔ ∃ item ∈ items, 0 < weight item := by
  induction items with
  | nil => simp [tally]
  | cons item rest ih =>
    simp only [tally, List.map_cons, List.sum_cons, List.exists_mem_cons_iff] at ih ⊢
    rw [← ih]
    omega

end KairosFlux.Lib
