import KairosFlux.Lib.SortedMap

/-! Layers of a store. A layer says something about some keys, and a newer layer hides what the
older ones say. -/

namespace KairosFlux.Lib

open List SortedMap Option

variable {K V : Type}

abbrev Layer (K V : Type) := K → Option V

namespace Layer

def empty : Layer K V := fun _ => none

def single [LinearOrder K] (key : K) (value : V) : Layer K V :=
  fun query => if query = key then some value else none

def above (upper lower : Layer K V) : Layer K V := fun key => (upper key).or (lower key)

/-- The layers of a list on top of each other, the newest last. -/
def stack : List (Layer K V) → Layer K V
  | [] => empty
  | oldest :: newer => above (stack newer) oldest

/-- What `lower` speaks about, `upper` hides. -/
def Covers (upper lower : Layer K V) : Prop := ∀ key, upper key = none → lower key = none

variable (upper middle lower : Layer K V)

@[simp] theorem above_empty : above upper empty = upper := by
  funext key
  exact or_none

theorem above_assoc : above (above upper middle) lower = above upper (above middle lower) := by
  funext key
  exact or_assoc

variable {Item : Type} (layers : List (Layer K V)) (key : K) (value : V)

theorem above_eq_none : above upper lower key = none ↔ upper key = none ∧ lower key = none :=
  or_eq_none_iff

theorem above_single_self [LinearOrder K] : above (single key value) lower key = some value := by
  simp [above, single]

theorem above_single_of_ne [LinearOrder K] (query : K) (value : V) (different : query ≠ key) :
    above (single key value) lower query = lower query := by
  simp [above, single, different]

/-- Only what the layers below say about other keys is seen through a single entry. -/
theorem above_single_congr [LinearOrder K] (left right : Layer K V)
    (same : ∀ query, query ≠ key → left query = right query) :
    above (single key value) left = above (single key value) right := by
  funext query
  by_cases here : query = key
  · rw [here, above_single_self, above_single_self]
  · rw [above_single_of_ne _ _ _ _ here, above_single_of_ne _ _ _ _ here, same query here]

/-- A single entry can be moved below a layer that is silent about its key. -/
theorem above_single_comm [LinearOrder K] (silent : upper key = none) :
    above (single key value) (above upper lower) = above upper (above (single key value) lower) := by
  funext query
  by_cases here : query = key
  · rw [here, above_single_self]
    simp only [above, silent, none_or, single, if_true, some_or]
  · rw [above_single_of_ne _ _ _ _ here, above, above, above_single_of_ne _ _ _ _ here]

theorem stack_append (older newer : List (Layer K V)) :
    stack (older ++ newer) = above (stack newer) (stack older) := by
  induction older with
  | nil => exact (above_empty (stack newer)).symm
  | cons oldest rest ih => rw [cons_append, stack, ih, stack, above_assoc]

theorem stack_snoc (older : List (Layer K V)) (newest : Layer K V) :
    stack (older ++ [newest]) = above newest (stack older) :=
  stack_append older [newest]

theorem stack_eq_findSome : stack layers key = layers.reverse.findSome? fun layer => layer key := by
  induction layers with
  | nil => rfl
  | cons oldest rest ih =>
    rw [stack, above, ih, reverse_cons, List.findSome?_append]
    simp

theorem exists_of_stack
    (said : stack layers key = some value) : ∃ layer ∈ layers, layer key = some value := by
  rw [stack_eq_findSome] at said
  obtain ⟨layer, member, here⟩ := exists_of_findSome?_eq_some said
  exact ⟨layer, mem_reverse.mp member, here⟩

theorem stack_ne_none (layer : Layer K V) (member : layer ∈ layers)
    (key : K) (speaks : layer key ≠ none) : stack layers key ≠ none := by
  intro silent
  rw [stack_eq_findSome, List.findSome?_eq_none_iff] at silent
  exact speaks (silent layer (mem_reverse.mpr member))

theorem stack_filter (items : List Item) (layer : Item → Layer K V) (test : Item → Bool) (key : K)
    (silent : ∀ item ∈ items, test item = false → layer item key = none) :
    stack ((items.filter test).map layer) key = stack (items.map layer) key := by
  induction items with
  | nil => rfl
  | cons item rest ih =>
    have behind := ih fun other member => silent other (.tail _ member)
    rw [map_cons, stack, above, ← behind]
    cases kept : test item with
    | true =>
      rw [filter_cons_of_pos kept]
      rfl
    | false =>
      rw [filter_cons_of_neg (by simp [kept]), silent item (.head _) kept, or_none]

/-- Without the dropped items a stack says the same or nothing, if no dropped item hides what an
older kept one says. -/
theorem stack_filter_or_silent (items : List Item) (layer : Item → Layer K V)
    (test : Item → Bool) (key : K)
    (apart : items.Pairwise fun older newer => test older = true → test newer = false →
      layer older key = none ∨ layer newer key = none) :
    stack ((items.filter test).map layer) key = stack (items.map layer) key ∨
      stack ((items.filter test).map layer) key = none := by
  induction items with
  | nil => exact .inl rfl
  | cons oldest rest ih =>
    obtain ⟨first, others⟩ := pairwise_cons.mp apart
    cases kept : test oldest with
    | false =>
      rw [filter_cons_of_neg (by simp [kept])]
      rcases ih others with same | silent
      · cases said : stack (rest.map layer) key with
        | none => exact .inr (same.trans said)
        | some value => left; simp only [map_cons, stack, above, same, said, some_or]
      · exact .inr silent
    | true =>
      simp only [filter_cons_of_pos kept, map_cons, stack, above]
      rcases ih others with same | silent
      · rw [same]
        exact .inl rfl
      · rw [silent, none_or]
        cases said : stack (rest.map layer) key with
        | none => exact .inl rfl
        | some value =>
          -- what hides the oldest item is one of the dropped ones
          obtain ⟨_, member, speaks⟩ := exists_of_stack _ _ _ said
          obtain ⟨item, inside, rfl⟩ := mem_map.mp member
          cases keptItem : test item with
          | false =>
            rcases first item inside kept keptItem with none | none
            · exact .inr none
            · rw [none] at speaks
              cases speaks
          | true =>
            have present : layer item ∈ (rest.filter test).map layer :=
              mem_map_of_mem (mem_filter.mpr ⟨inside, keptItem⟩)
            have said := stack_ne_none _ _ present key (by rw [speaks]; exact nofun)
            exact absurd silent said

theorem stack_filterMap (items : List Item) (pick : Item → Option (Layer K V))
    (whole : Item → Layer K V) (key : K)
    (same : ∀ item ∈ items, ((pick item).bind fun layer => layer key) = whole item key) :
    stack (items.filterMap pick) key = stack (items.map whole) key := by
  induction items with
  | nil => rfl
  | cons item rest ih =>
    have here := same item (.head _)
    have behind := ih fun other member => same other (.tail _ member)
    rw [map_cons, stack, above, ← behind, ← here]
    cases shape : pick item with
    | none =>
      rw [filterMap_cons_none shape]
      exact (or_none).symm
    | some layer =>
      rw [filterMap_cons_some shape]
      rfl

variable {upper middle lower}

theorem Covers.refl : Covers upper upper := fun _ silent => silent

theorem Covers.above (first : Covers upper middle) (second : Covers upper lower) :
    Covers upper (Layer.above middle lower) := by
  intro key silent
  rw [above_eq_none]
  exact ⟨first key silent, second key silent⟩

theorem Covers.left (covers : Covers upper (Layer.above middle lower)) : Covers upper middle :=
  fun key silent => ((above_eq_none middle lower key).mp (covers key silent)).1

theorem Covers.right (covers : Covers upper (Layer.above middle lower)) : Covers upper lower :=
  fun key silent => ((above_eq_none middle lower key).mp (covers key silent)).2

theorem Covers.above_mono (covers : Covers upper lower) (added : Layer K V) :
    Covers (Layer.above added upper) (Layer.above added lower) := by
  intro key silent
  rw [above_eq_none] at silent ⊢
  exact ⟨silent.1, covers key silent.2⟩

/-- A layer that is covered from above can be moved into the layers below unseen. -/
theorem above_covered (covers : Covers upper middle) :
    Layer.above upper (Layer.above middle lower) = Layer.above upper lower := by
  funext key
  cases said : upper key with
  | none => simp only [Layer.above, said, covers key said, none_or]
  | some value => simp only [Layer.above, said, some_or]

theorem above_self (upper lower : Layer K V) :
    Layer.above upper (Layer.above upper lower) = Layer.above upper lower :=
  above_covered Covers.refl

/-- The same values are read, where a deletion is like silence. -/
def SameReads (left right : Layer K (Option V)) : Prop := ∀ key, (left key).join = (right key).join

/-- The lower layer is not missed exactly if the upper one speaks about every value in it. -/
theorem sameReads_above_iff {upper lower : Layer K (Option V)} :
    SameReads upper (Layer.above upper lower) ↔
      ∀ key value, lower key = some (some value) → upper key ≠ none := by
  constructor
  · intro same key value present silent
    have read := same key
    rw [Layer.above, silent, present] at read
    cases read
  · intro spoken key
    cases said : upper key with
    | some value => rw [Layer.above, said, some_or]
    | none =>
      rw [Layer.above, said, none_or]
      cases below : lower key with
      | none => rfl
      | some value =>
        cases value with
        | none => rfl
        | some value => exact absurd said (spoken key value below)

theorem SameReads.above_single [LinearOrder K] {left right : Layer K (Option V)}
    (same : SameReads left right) (key : K) (value : Option V) :
    SameReads (Layer.above (single key value) left) (Layer.above (single key value) right) := by
  intro query
  by_cases here : query = key
  · rw [here, above_single_self, above_single_self]
  · rw [above_single_of_ne _ _ _ _ here, above_single_of_ne _ _ _ _ here, same query]

/-- A layer can be put in between if what it says is hidden from above or is what is read anyway. -/
theorem SameReads.insert {upper lower added whole : Layer K (Option V)}
    (same : SameReads (Layer.above upper lower) whole)
    (unnoticed : ∀ key value, added key = some value → upper key ≠ none ∨ value = (whole key).join) :
    SameReads (Layer.above upper (Layer.above added lower)) whole := by
  intro key
  rw [← same key]
  cases said : upper key with
  | some value => simp only [Layer.above, said, some_or]
  | none =>
    cases new : added key with
    | none => simp only [Layer.above, said, new, none_or]
    | some value =>
      rcases unnoticed key value new with hidden | read
      · exact absurd said hidden
      · rw [same key, ← read]
        simp only [Layer.above, said, new, none_or, some_or, join_some]

def Agrees (upper lower : Layer K V) : Prop :=
  ∀ key value, upper key = some value → lower key = some value

theorem Agrees.above (agrees : Agrees upper middle) (lower : Layer K V) :
    Agrees upper (Layer.above middle lower) := by
  intro key value said
  rw [Layer.above, agrees key value said, some_or]

/-- A layer that only repeats what lies below it is not seen. -/
theorem Agrees.unseen (agrees : Agrees upper lower) : Layer.above upper lower = lower := by
  funext key
  cases said : upper key with
  | none => rw [Layer.above, said, none_or]
  | some value => rw [Layer.above, said, agrees key value said, some_or]

theorem stack_agrees (older newer : List (Layer K V)) :
    Agrees (stack newer) (stack (older ++ newer)) := by
  intro key value said
  rw [stack_append, Layer.above, said, some_or]

section Entries

variable [LinearOrder K]

def ofEntries (entries : List (K × V)) : Layer K V := fun key => lookupIn key entries

theorem ofEntries_cons (entry : K × V) (rest : List (K × V)) :
    ofEntries (entry :: rest) = Layer.above (single entry.1 entry.2) (ofEntries rest) := by
  funext key
  by_cases here : key = entry.1
  · rw [here, above_single_self, ofEntries, lookupIn, if_pos rfl]
  · rw [above_single_of_ne _ _ _ _ here, ofEntries, lookupIn, if_neg (Ne.symm here)]
    rfl

theorem stack_singles (entries : List (K × V)) (sorted : entries.Pairwise KeyLt) :
    stack (entries.map fun entry => single entry.1 entry.2) = ofEntries entries := by
  induction entries with
  | nil => rfl
  | cons entry rest ih =>
    obtain ⟨heads, tails⟩ := pairwise_cons.mp sorted
    have silent : ofEntries rest entry.1 = none :=
      lookupIn_eq_none entry.1 rest fun other member => (heads other member).ne'
    rw [map_cons, stack, ih tails, ofEntries_cons]
    have moved := above_single_comm (ofEntries rest) empty entry.1 entry.2 silent
    rw [above_empty, above_empty] at moved
    exact moved.symm

end Entries

end Layer

end KairosFlux.Lib
