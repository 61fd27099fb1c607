import Mathlib.Data.List.Perm.Basic
import Mathlib.Order.Basic
import Mathlib.Tactic

/-! Reading a list page by page with a cursor.

The pages are cut from the list in its own order, and the cursor is compared in another order, that
of the positions. Draining the pages gives the whole list exactly when the two orders agree across
every page boundary. -/

namespace KairosFlux.Lib

open List

variable {Entry Cursor Position : Type} [LinearOrder Position]

/-- Asks for pages until one says that nothing follows it. The cursor of the next page is that of
the last entry of the page before. -/
def drain (page : Option Cursor → List Entry × Bool) (cursorOf : Entry → Cursor) :
    Nat → Option Cursor → Option (List Entry)
  | 0, _ => none
  | fuel + 1, after =>
    match page after with
    | (entries, false) => some entries
    | (entries, true) =>
      match entries.getLast? with
      | none => none
      | some last => (drain page cursorOf fuel (some (cursorOf last))).map (entries ++ ·)

def beyond (position : Cursor → Position) (cursorOf : Entry → Cursor) (after : Option Cursor)
    (entry : Entry) : Bool :=
  match after with
  | none => true
  | some cursor => position cursor < position (cursorOf entry)

/-- A page holds the first entries past the cursor, sorted by position, and says whether there are
more. -/
structure Pages (page : Option Cursor → List Entry × Bool) (position : Cursor → Position)
    (cursorOf : Entry → Cursor) (limit : Nat) (scan : List Entry) : Prop where
  perm : ∀ after, (page after).1.Perm ((scan.filter (beyond position cursorOf after)).take limit)
  sorted : ∀ after, (page after).1.Pairwise fun left right =>
    position (cursorOf left) ≤ position (cursorOf right)
  more : ∀ after, (page after).2 =
    decide (limit < (scan.filter (beyond position cursorOf after)).length)

/-- Every entry before a page boundary has a smaller position than every entry after it. -/
def BlocksOrdered (place : Entry → Position) (limit : Nat) (scan : List Entry) : Prop :=
  ∀ i, ∀ left ∈ scan.take (i * limit), ∀ right ∈ scan.drop (i * limit), place left < place right

theorem blocksOrdered_of_length_le (place : Entry → Position) (limit : Nat) (scan : List Entry)
    (short : scan.length ≤ limit) : BlocksOrdered place limit scan := by
  intro i left leftIn right rightIn
  cases i with
  | zero => simp at leftIn
  | succ i =>
    have all : scan.length ≤ (i + 1) * limit := by
      rw [Nat.succ_mul]
      omega
    rw [drop_eq_nil_of_le all] at rightIn
    cases rightIn

theorem blocksOrdered_iff (place : Entry → Position) (limit : Nat) (scan : List Entry) :
    BlocksOrdered place limit scan ↔
      (∀ left ∈ scan.take limit, ∀ right ∈ scan.drop limit, place left < place right) ∧
        BlocksOrdered place limit (scan.drop limit) := by
  have front : ∀ i, scan.take ((i + 1) * limit) =
      scan.take limit ++ (scan.drop limit).take (i * limit) := by
    intro i
    rw [Nat.succ_mul, Nat.add_comm, take_add]
  have back : ∀ i, scan.drop ((i + 1) * limit) = (scan.drop limit).drop (i * limit) := by
    intro i
    rw [Nat.succ_mul, Nat.add_comm, drop_drop]
  constructor
  · intro ordered
    constructor
    · have first := ordered 1
      rwa [Nat.one_mul] at first
    · intro i left leftIn right rightIn
      apply ordered (i + 1) left
      · rw [front]
        exact mem_append_right _ leftIn
      · rwa [back]
  · intro ordered i left leftIn right rightIn
    cases i with
    | zero => simp at leftIn
    | succ i =>
      rw [front] at leftIn
      rw [back] at rightIn
      rcases mem_append.mp leftIn with leftIn | leftIn
      · exact ordered.1 left leftIn right (mem_of_mem_drop rightIn)
      · exact ordered.2 i left leftIn right rightIn

variable {page : Option Cursor → List Entry × Bool} {position : Cursor → Position}
  {cursorOf : Entry → Cursor} {limit : Nat} {scan : List Entry}

theorem drain_last (fuel : Nat) (after : Option Cursor) (last : (page after).2 = false) :
    drain page cursorOf (fuel + 1) after = some (page after).1 := by
  rw [drain]
  cases shape : page after with
  | mk entries more =>
    rw [shape] at last
    cases last
    rfl

theorem drain_next (fuel : Nat) (after : Option Cursor) (entry : Entry)
    (more : (page after).2 = true) (last : (page after).1.getLast? = some entry) :
    drain page cursorOf (fuel + 1) after =
      (drain page cursorOf fuel (some (cursorOf entry))).map ((page after).1 ++ ·) := by
  rw [drain]
  cases shape : page after with
  | mk entries hasMore =>
    rw [shape] at more last
    cases more
    simp only [last]

/-- A page that is not the last one has an entry of largest position, its last. -/
theorem Pages.largest (pages : Pages page position cursorOf limit scan) (positive : 0 < limit)
    (after : Option Cursor) (more : limit < (scan.filter (beyond position cursorOf after)).length) :
    ∃ entry, (page after).1.getLast? = some entry ∧
      entry ∈ (scan.filter (beyond position cursorOf after)).take limit ∧
      ∀ other ∈ (scan.filter (beyond position cursorOf after)).take limit,
        position (cursorOf other) ≤ position (cursorOf entry) := by
  have perm := pages.perm after
  rcases eq_nil_or_concat (page after).1 with empty | ⟨front, entry, shape⟩
  · have length := perm.length_eq
    rw [empty, length_take, length_nil] at length
    omega
  · rw [concat_eq_append] at shape
    refine ⟨entry, by rw [shape, List.getLast?_concat], ?_, ?_⟩
    · rw [← perm.mem_iff, shape]
      exact mem_append_right _ (.head _)
    · intro other member
      rw [← perm.mem_iff, shape] at member
      have sorted := pages.sorted after
      rw [shape] at sorted
      rcases mem_append.mp member with member | member
      · exact (pairwise_append.mp sorted).2.2 other member entry (.head _)
      · rw [mem_singleton.mp member]

/-- A narrower filter that takes nothing of the front of a filtered list. -/
theorem filter_eq_filter_drop (wide narrow : Entry → Bool)
    (narrower : ∀ entry, narrow entry = true → wide entry = true)
    (front : ∀ entry ∈ (scan.filter wide).take limit, ¬ narrow entry = true) :
    scan.filter narrow = ((scan.filter wide).drop limit).filter narrow := by
  have whole : scan.filter narrow = (scan.filter wide).filter narrow := by
    rw [filter_filter]
    apply filter_congr
    intro entry _
    cases past : narrow entry with
    | false => rfl
    | true => rw [narrower entry past]; rfl
  rw [whole]
  conv_lhs => rw [← take_append_drop limit (scan.filter wide)]
  rw [filter_append, filter_eq_nil_iff.mpr front, nil_append]

theorem filter_beyond_last (after : Option Cursor) (entry : Entry)
    (member : entry ∈ (scan.filter (beyond position cursorOf after)).take limit)
    (largest : ∀ other ∈ (scan.filter (beyond position cursorOf after)).take limit,
      position (cursorOf other) ≤ position (cursorOf entry)) :
    scan.filter (beyond position cursorOf (some (cursorOf entry))) =
      ((scan.filter (beyond position cursorOf after)).drop limit).filter
        (beyond position cursorOf (some (cursorOf entry))) := by
  apply filter_eq_filter_drop
  · intro other past
    cases after with
    | none => rfl
    | some cursor =>
      have pastCursor := (mem_filter.mp (mem_of_mem_take member)).2
      simp only [beyond, decide_eq_true_eq] at past pastCursor ⊢
      exact lt_trans pastCursor past
  · intro other inside past
    simp only [beyond, decide_eq_true_eq] at past
    exact absurd past (not_lt.mpr (largest other inside))

theorem filter_drop_of_past (rest : List Entry) (entry : Entry)
    (past : ∀ right ∈ rest.drop limit, position (cursorOf entry) < position (cursorOf right)) :
    (rest.drop limit).filter (beyond position cursorOf (some (cursorOf entry))) =
      rest.drop limit := by
  rw [filter_eq_self]
  intro right rightIn
  rw [beyond, decide_eq_true_eq]
  exact past right rightIn

/-- A page and the rest of the drain give everything exactly when nothing behind the page is before
its last entry and the rest is complete. -/
theorem perm_append_iff (rest first all left : List Entry) (entry : Entry)
    (perm : first.Perm (rest.take limit)) (member : entry ∈ rest.take limit)
    (largest : ∀ other ∈ rest.take limit, position (cursorOf other) ≤ position (cursorOf entry))
    (isLeft : left = (rest.drop limit).filter (beyond position cursorOf (some (cursorOf entry))))
    (inside : ∀ other ∈ all, other ∈ left)
    (agrees : all.Perm left ↔ BlocksOrdered (fun entry => position (cursorOf entry)) limit left) :
    (first ++ all).Perm rest ↔
      BlocksOrdered (fun entry => position (cursorOf entry)) limit rest := by
  subst isLeft
  have whole : rest.take limit ++ rest.drop limit = rest := take_append_drop limit rest
  rw [blocksOrdered_iff]
  constructor
  · intro complete
    have tail : all.Perm (rest.drop limit) := by
      rw [← perm_append_left_iff first]
      exact complete.trans (by
        conv_lhs => rw [← whole]
        exact perm.symm.append_right _)
    have past : ∀ right ∈ rest.drop limit,
        position (cursorOf entry) < position (cursorOf right) := by
      intro right rightIn
      have listed := inside right (tail.mem_iff.mpr rightIn)
      simpa [beyond] using (mem_filter.mp listed).2
    rw [filter_drop_of_past rest entry past] at agrees
    refine ⟨?_, agrees.mp tail⟩
    intro left leftIn right rightIn
    exact lt_of_le_of_lt (largest left leftIn) (past right rightIn)
  · intro ordered
    rw [filter_drop_of_past rest entry (ordered.1 entry member)] at agrees
    conv_rhs => rw [← whole]
    exact perm.append (agrees.mpr ordered.2)

section

variable (pages : Pages page position cursorOf limit scan)
include pages

theorem drain_last_page (after : Option Cursor)
    (rest : List Entry) (isRest : rest = scan.filter (beyond position cursorOf after))
    (short : rest.length ≤ limit) :
    ∃ all, (∀ fuel, rest.length < fuel → drain page cursorOf fuel after = some all) ∧
      (∀ entry ∈ all, entry ∈ rest) ∧
      (all.Perm rest ↔ BlocksOrdered (fun entry => position (cursorOf entry)) limit rest) := by
  have last : (page after).2 = false := by
    rw [pages.more, decide_eq_false_iff_not, ← isRest]
    omega
  have perm := pages.perm after
  rw [← isRest, take_of_length_le short] at perm
  refine ⟨(page after).1, ?_, fun entry member => perm.mem_iff.mp member, ?_⟩
  · intro fuel enough
    obtain ⟨less, rfl⟩ : ∃ less, fuel = less + 1 := ⟨fuel - 1, by omega⟩
    exact drain_last less after last
  · exact iff_of_true perm (blocksOrdered_of_length_le _ limit rest short)

-- By induction on how much lies past the cursor; each page that is not the last shortens it.
theorem drain_from (positive : 0 < limit) (bound : Nat) (after : Option Cursor) (rest : List Entry)
    (isRest : rest = scan.filter (beyond position cursorOf after)) (small : rest.length ≤ bound) :
    ∃ all, (∀ fuel, rest.length < fuel → drain page cursorOf fuel after = some all) ∧
      (∀ entry ∈ all, entry ∈ rest) ∧
      (all.Perm rest ↔ BlocksOrdered (fun entry => position (cursorOf entry)) limit rest) := by
  induction bound generalizing after rest with
  | zero => exact drain_last_page pages after rest isRest (by omega)
  | succ bound ih =>
    by_cases short : rest.length ≤ limit
    · exact drain_last_page pages after rest isRest short
    · have longer : limit < (scan.filter (beyond position cursorOf after)).length := by
        rw [← isRest]
        omega
      obtain ⟨entry, last, member, largest⟩ := pages.largest positive after longer
      have shrinks := filter_beyond_last after entry member largest
      rw [← isRest] at member largest shrinks
      have shorter : (scan.filter (beyond position cursorOf (some (cursorOf entry)))).length ≤
          rest.length - limit := by
        rw [shrinks, ← length_drop]
        exact length_filter_le _ _
      obtain ⟨all, drained, inside, agrees⟩ := ih (some (cursorOf entry)) _ rfl (by omega)
      have more : (page after).2 = true := by
        rw [pages.more, decide_eq_true_eq]
        exact longer
      have perm := pages.perm after
      rw [← isRest] at perm
      refine ⟨(page after).1 ++ all, ?_, ?_, ?_⟩
      · intro fuel enough
        obtain ⟨less, rfl⟩ : ∃ less, fuel = less + 1 := ⟨fuel - 1, by omega⟩
        rw [drain_next less after entry more last, drained less (by omega), Option.map_some]
      · intro other listed
        rcases mem_append.mp listed with listed | listed
        · exact mem_of_mem_take (perm.mem_iff.mp listed)
        · exact mem_of_mem_drop (mem_of_mem_filter (shrinks ▸ inside other listed))
      · exact perm_append_iff rest _ all _ entry perm member largest shrinks inside agrees

/-- Draining always ends, and gives every entry once exactly when the blocks are ordered. -/
theorem drain_complete_iff (positive : 0 < limit) :
    ∃ all, (∀ fuel, scan.length < fuel → drain page cursorOf fuel none = some all) ∧
      (all.Perm scan ↔ BlocksOrdered (fun entry => position (cursorOf entry)) limit scan) := by
  have everything : scan = scan.filter (beyond position cursorOf none) :=
    (filter_eq_self.mpr fun _ _ => rfl).symm
  obtain ⟨all, drained, _, agrees⟩ := drain_from pages positive scan.length none scan everything le_rfl
  exact ⟨all, drained, agrees⟩

end

end KairosFlux.Lib
