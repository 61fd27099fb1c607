import KairosFlux.Lib.SortedMap

/-! Sorted lists cut into blocks, and the binary search for the block that can hold a key. -/

namespace KairosFlux.Lib

open List SortedMap

section Cut

variable {Item : Type} (size : Nat)

-- A block takes at least one item, so as many rounds as there are items are enough.
def cutBlocks : Nat → List Item → List (List Item)
  | 0, _ => []
  | _, [] => []
  | fuel + 1, item :: rest =>
    (item :: rest.take size) :: cutBlocks fuel (rest.drop size)

variable (fuel : Nat) (items : List Item)

@[simp] theorem cutBlocks_nil : cutBlocks size fuel ([] : List Item) = [] := by
  cases fuel <;> rfl

/-- Blocks of `size + 1` items, the last one perhaps shorter. -/
def blocksOf (items : List Item) : List (List Item) := cutBlocks size items.length items

theorem flatten_cutBlocks (enough : items.length ≤ fuel) :
    (cutBlocks size fuel items).flatten = items := by
  induction fuel generalizing items with
  | zero => rw [eq_nil_of_length_eq_zero (Nat.le_zero.mp enough)]; rfl
  | succ fuel ih =>
    cases items with
    | nil => rfl
    | cons item rest =>
      have shorter : (rest.drop size).length ≤ fuel := by
        rw [length_drop]
        exact (Nat.sub_le _ _).trans (Nat.le_of_succ_le_succ enough)
      rw [cutBlocks, flatten_cons, ih _ shorter, cons_append, take_append_drop]

theorem flatten_blocksOf : (blocksOf size items).flatten = items :=
  flatten_cutBlocks size items.length items le_rfl

theorem blocksOf_ne_nil : ∀ block ∈ blocksOf size items, block ≠ [] := by
  rw [blocksOf]
  generalize items.length = fuel
  induction fuel generalizing items with
  | zero => exact nofun
  | succ fuel ih =>
    cases items with
    | nil => exact nofun
    | cons item rest =>
      exact forall_mem_cons.mpr ⟨cons_ne_nil _ _, ih (rest.drop size)⟩

theorem length_cutBlocks :
    (cutBlocks size fuel items).length * (size + 1) ≤ items.length + size := by
  induction fuel generalizing items with
  | zero => rw [cutBlocks, length_nil, Nat.zero_mul]; exact Nat.zero_le _
  | succ fuel ih =>
    cases items with
    | nil => rw [cutBlocks_nil, length_nil, Nat.zero_mul]; exact Nat.zero_le _
    | cons item rest =>
      rw [cutBlocks, length_cons, Nat.succ_mul, length_cons]
      by_cases short : rest.length ≤ size
      · rw [drop_eq_nil_of_le short, cutBlocks_nil, length_nil]
        omega
      · have inner := ih (rest.drop size)
        rw [length_drop] at inner
        omega

theorem length_blocksOf : (blocksOf size items).length * (size + 1) ≤ items.length + size :=
  length_cutBlocks size items.length items

theorem le_length_cutBlocks (enough : items.length ≤ fuel) :
    items.length ≤ (cutBlocks size fuel items).length * (size + 1) := by
  induction fuel generalizing items with
  | zero => omega
  | succ fuel ih =>
    cases items with
    | nil => exact Nat.zero_le _
    | cons item rest =>
      have inner := ih (rest.drop size) (by simp at enough ⊢; omega)
      rw [length_drop] at inner
      rw [cutBlocks, length_cons, length_cons, Nat.succ_mul]
      omega

end Cut

/-- The loop that halves the positions from `lo` to `hi`. -/
def lowerBound (test : Nat → Bool) : Nat → Nat → Nat → Nat
  | 0, lo, _ => lo
  | fuel + 1, lo, hi =>
    if lo < hi then
      if test ((lo + hi) / 2) then lowerBound test fuel lo ((lo + hi) / 2)
      else lowerBound test fuel ((lo + hi) / 2 + 1) hi
    else lo

/-- The first position of a range that passes, or its end. -/
structure IsLowerBound (test : Nat → Bool) (lo hi found : Nat) : Prop where
  lower : lo ≤ found
  upper : found ≤ hi
  before : ∀ i, lo ≤ i → i < found → test i = false
  here : found < hi → test found = true

theorem lowerBound_spec (test : Nat → Bool) (fuel lo hi : Nat)
    (closed : ∀ i j, i ≤ j → j < hi → test i = true → test j = true) (enough : hi - lo ≤ fuel)
    (inside : lo ≤ hi) : IsLowerBound test lo hi (lowerBound test fuel lo hi) := by
  induction fuel generalizing lo hi with
  | zero =>
    refine ⟨le_rfl, inside, fun i above below => absurd below above.not_gt, fun below => ?_⟩
    rw [lowerBound] at below
    omega
  | succ fuel ih =>
    rw [lowerBound]
    split_ifs with open_ passes
    · obtain ⟨lower, upper, before, here⟩ := ih lo ((lo + hi) / 2)
        (fun i j le below => closed i j le (by omega)) (by omega) (by omega)
      refine ⟨lower, by omega, before, fun _ => ?_⟩
      rcases upper.lt_or_eq with less | same
      · exact here less
      · rw [same]
        exact passes
    · obtain ⟨lower, upper, before, here⟩ := ih ((lo + hi) / 2 + 1) hi closed (by omega) (by omega)
      refine ⟨by omega, upper, fun i above below => ?_, here⟩
      by_cases behind : (lo + hi) / 2 + 1 ≤ i
      · exact before i behind below
      · rw [← Bool.not_eq_true]
        exact fun early => passes (closed i _ (by omega) (by omega) early)
    · exact ⟨le_rfl, inside, fun i above below => absurd below above.not_gt,
        fun below => absurd below open_⟩

section Locate

variable {K V : Type} [LinearOrder K]

/-- The key of a block that the search compares with, its largest one. -/
def IsLast (block : List (K × V)) (last : K) : Prop :=
  (∃ entry ∈ block, entry.1 = last) ∧ ∀ entry ∈ block, entry.1 ≤ last

/-- The blocks around the one that the search finds. -/
structure Located (blocks : List (List (K × V))) (key : K) (found : Nat)
    (before : List (List (K × V))) (block : List (K × V)) (after : List (List (K × V))) : Prop where
  split : blocks = before ++ block :: after
  position : before.length = found
  below : ∀ entry ∈ before.flatten, entry.1 < key
  above : ∀ entry ∈ after.flatten, key < entry.1
  reached : after ≠ [] → ∃ entry ∈ block, key ≤ entry.1

variable {blocks : List (List (K × V))} {key : K} {last : Nat → K}

variable {before after : List (List (K × V))} {block : List (K × V)} {found : Nat}

theorem Located.flatten (located : Located blocks key found before block after) :
    blocks.flatten = before.flatten ++ (block ++ after.flatten) := by
  rw [located.split, flatten_append, flatten_cons]

theorem Located.block_mem
    (located : Located blocks key found before block after) : block ∈ blocks := by
  rw [located.split]
  exact mem_append_right _ (.head _)

theorem last_lt_last (sorted : blocks.flatten.Pairwise KeyLt)
    (lasts : ∀ i block, blocks[i]? = some block → IsLast block (last i)) (i j : Nat) (less : i < j)
    (inside : j < blocks.length) : last i < last j := by
  obtain ⟨⟨left, leftIn, leftLast⟩, _⟩ := lasts i _ (List.getElem?_eq_getElem (less.trans inside))
  obtain ⟨⟨right, rightIn, rightLast⟩, _⟩ := lasts j _ (List.getElem?_eq_getElem inside)
  have apart := pairwise_iff_getElem.mp (pairwise_flatten.mp sorted).2 i j
    (less.trans inside) inside less
  rw [← leftLast, ← rightLast]
  exact apart left leftIn right rightIn

theorem located (sorted : blocks.flatten.Pairwise KeyLt) (nonempty : blocks ≠ [])
    (lasts : ∀ i block, blocks[i]? = some block → IsLast block (last i)) :
    ∃ before block after, Located blocks key
      (lowerBound (fun i => key ≤ last i) blocks.length 0 (blocks.length - 1)) before block after := by
  have positive : 0 < blocks.length := length_pos_of_ne_nil nonempty
  have closed : ∀ i j, i ≤ j → j < blocks.length - 1 → decide (key ≤ last i) = true →
      decide (key ≤ last j) = true := by
    intro i j le below passes
    rw [decide_eq_true_eq] at passes ⊢
    rcases le.lt_or_eq with less | rfl
    · exact passes.trans (last_lt_last sorted lasts i j less (by omega)).le
    · exact passes
  obtain ⟨_, upper, before, here⟩ := lowerBound_spec _ blocks.length 0 (blocks.length - 1) closed
    (by omega) (Nat.zero_le _)
  generalize lowerBound (fun i => decide (key ≤ last i)) blocks.length 0 (blocks.length - 1) = found
    at upper before here
  have inside : found < blocks.length := by omega
  have apart := pairwise_iff_getElem.mp (pairwise_flatten.mp sorted).2
  obtain ⟨⟨top, topIn, topLast⟩, _⟩ := lasts found _ (List.getElem?_eq_getElem inside)
  refine ⟨blocks.take found, blocks[found], blocks.drop (found + 1), ?_⟩
  constructor
  case split => rw [← drop_eq_getElem_cons inside, take_append_drop]
  case position => exact length_take_of_le inside.le
  case below =>
    intro entry member
    obtain ⟨block, blockIn, entryIn⟩ := mem_flatten.mp member
    obtain ⟨i, small, rfl⟩ := mem_iff_getElem.mp blockIn
    rw [length_take] at small
    rw [getElem_take] at entryIn
    have bound := (lasts i _ (List.getElem?_eq_getElem (by omega))).2 entry entryIn
    have passed := of_decide_eq_false (before i (Nat.zero_le _) (by omega))
    exact bound.trans_lt (not_le.mp passed)
  case above =>
    intro entry member
    obtain ⟨block, blockIn, entryIn⟩ := mem_flatten.mp member
    obtain ⟨i, small, rfl⟩ := mem_iff_getElem.mp blockIn
    rw [length_drop] at small
    rw [getElem_drop] at entryIn
    have reached : key ≤ last found := of_decide_eq_true (here (by omega))
    have less := apart found (found + 1 + i) inside (by omega) (by omega) top topIn entry entryIn
    exact (reached.trans_eq topLast.symm).trans_lt less
  case reached =>
    intro more
    have behind : found + 1 < blocks.length := by
      by_contra ended
      exact more (drop_eq_nil_of_le (by omega))
    have passes : key ≤ last found := of_decide_eq_true (here (by omega))
    exact ⟨top, topIn, passes.trans_eq topLast.symm⟩

theorem Located.lookupIn (located : Located blocks key found before block after) :
    lookupIn key blocks.flatten = lookupIn key block := by
  have front : ∀ entry ∈ before.flatten, entry.1 ≠ key :=
    fun entry member => (located.below entry member).ne
  have back : ∀ entry ∈ after.flatten, entry.1 ≠ key :=
    fun entry member => (located.above entry member).ne'
  rw [located.flatten, lookupIn_append, lookupIn_append,
    lookupIn_eq_none key _ front, lookupIn_eq_none key _ back, Option.none_or,
    Option.or_none]

end Locate

end KairosFlux.Lib
