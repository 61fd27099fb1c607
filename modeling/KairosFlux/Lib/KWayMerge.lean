import KairosFlux.Lib.Overlay

/-! Merging sorted feeds, the later feed winning where several have a key. -/

namespace KairosFlux.Lib

variable {K V : Type} [LinearOrder K]

/-- What an iterator delivers, and whether it then reports an error. -/
structure Feed (K V : Type) where
  items : List (K × V)
  failed : Bool
  deriving DecidableEq

/-- A feed whose next item has been pulled. -/
structure MergeSource (K V : Type) where
  srcIdx : Nat
  key : K
  value : V
  rest : Feed K V

namespace MergeSource

/-- The smaller key comes first and, of equal keys, the later feed. -/
def Less (left right : MergeSource K V) : Prop :=
  left.key < right.key ∨ left.key = right.key ∧ right.srcIdx < left.srcIdx
deriving Decidable

def remaining (s : MergeSource K V) : List (K × V) := (s.key, s.value) :: s.rest.items

structure Sound (s : MergeSource K V) : Prop where
  sorted : s.remaining.Pairwise KeyLt
  whole : s.rest.failed = false

def advanced (s : MergeSource K V) : List (MergeSource K V) :=
  match s.rest.items with
  | [] => []
  | item :: items => [⟨s.srcIdx, item.1, item.2, ⟨items, s.rest.failed⟩⟩]

end MergeSource

open MergeSource List Layer Option

namespace KWayMerge

/-- The next item of a feed, or none at its end. An error, and an item that does not go beyond the
one before it, give no result. -/
def pull (srcIdx : Nat) (prev : Option K) (feed : Feed K V) : Option (List (MergeSource K V)) :=
  match feed.items with
  | [] => if feed.failed then none else some []
  | item :: items =>
    if prev.any (fun before => decide (item.1 ≤ before)) then none
    else some [⟨srcIdx, item.1, item.2, ⟨items, feed.failed⟩⟩]

def popMin : List (MergeSource K V) → Option (MergeSource K V × List (MergeSource K V))
  | [] => none
  | s :: rest =>
    match popMin rest with
    | none => some (s, [])
    | some (least, others) => if Less s least then some (s, rest) else some (least, s :: others)

def advance (s : MergeSource K V) (heap : List (MergeSource K V)) :
    Option (List (MergeSource K V)) :=
  (pull s.srcIdx (some s.key) s.rest).map (· ++ heap)

def dropKey (key : K) : Nat → List (MergeSource K V) → Option (List (MergeSource K V))
  | 0, heap => some heap
  | fuel + 1, heap =>
    match popMin heap with
    | none => some heap
    | some (top, others) =>
      if top.key = key then (advance top others).bind (dropKey key fuel) else some heap

-- A source goes beyond the key when it is advanced, so each one is dropped at most once.
def next (top : MergeSource K V) (others : List (MergeSource K V)) :
    Option (List (MergeSource K V)) :=
  (advance top others).bind fun heap => dropKey top.key heap.length heap

def mergeAll : Nat → List (MergeSource K V) → List (K × V) × Bool
  | 0, _ => ([], false)
  | fuel + 1, heap =>
    match popMin heap with
    | none => ([], false)
    | some (top, others) =>
      match next top others with
      | none => ([], true)
      | some heap =>
        ((top.key, top.value) :: (mergeAll fuel heap).1, (mergeAll fuel heap).2)

def start : Nat → List (Feed K V) → Option (List (MergeSource K V))
  | _, [] => some []
  | srcIdx, feed :: feeds =>
    (pull srcIdx none feed).bind fun head => (start (srcIdx + 1) feeds).map (head ++ ·)

def size (heap : List (MergeSource K V)) : Nat := (heap.map fun s => s.remaining.length).sum

/-- What the merged iterator delivers, and whether it ends in an error. -/
def merge (feeds : List (Feed K V)) : List (K × V) × Bool :=
  match start 0 feeds with
  | none => ([], true)
  | some heap => mergeAll (size heap) heap

variable (heap others : List (MergeSource K V)) (top : MergeSource K V)

theorem less_irrefl : ¬ Less top top := by simp [Less]

theorem less_trans {first second third : MergeSource K V} (left : Less first second)
    (right : Less second third) : Less first third := by
  rcases left with left | ⟨same, newer⟩
  · rcases right with right | ⟨same, _⟩
    · exact .inl (left.trans right)
    · exact .inl (same ▸ left)
  · rcases right with right | ⟨other, newest⟩
    · exact .inl (same ▸ right)
    · exact .inr ⟨same.trans other, newest.trans newer⟩

theorem popMin_spec : (popMin heap).elim (heap = []) fun found =>
    (found.1 :: found.2).Perm heap ∧ ∀ s ∈ heap, ¬ Less s found.1 := by
  induction heap with
  | nil => rfl
  | cons s rest ih =>
    rw [popMin]
    cases deeper : popMin rest with
    | none =>
      rw [deeper, elim_none] at ih
      rw [ih]
      exact ⟨.refl _, forall_mem_singleton.mpr (less_irrefl s)⟩
    | some found =>
      rw [deeper, elim_some] at ih
      simp only
      split_ifs with less
      · refine ⟨.refl _, forall_mem_cons.mpr ⟨less_irrefl s, fun t member smaller => ?_⟩⟩
        exact ih.2 t member (less_trans smaller less)
      · exact ⟨(List.Perm.swap ..).trans (ih.1.cons s), forall_mem_cons.mpr ⟨less, ih.2⟩⟩

theorem popMin_none (popped : popMin heap = none) : heap = [] := by
  simpa [popped] using popMin_spec heap

theorem popMin_some (popped : popMin heap = some (top, others)) :
    (top :: others).Perm heap ∧ ∀ s ∈ heap, ¬ Less s top := by
  simpa [popped] using popMin_spec heap

theorem not_less {s top : MergeSource K V} (least : ¬ Less s top) :
    top.key ≤ s.key ∧ (s.key = top.key → s.srcIdx ≤ top.srcIdx) := by
  rw [Less, not_or, not_and, not_lt] at least
  exact ⟨least.1, fun same => not_lt.mp (least.2 same)⟩

end KWayMerge

namespace MergeSource

theorem Sound.key_lt {s : MergeSource K V} (sound : s.Sound) :
    ∀ item ∈ s.rest.items, s.key < item.1 :=
  (pairwise_cons.mp sound.sorted).1

theorem Sound.advanced {s t : MergeSource K V} (sound : s.Sound) (member : t ∈ s.advanced) :
    t.Sound ∧ t.srcIdx = s.srcIdx ∧ s.key < t.key ∧ t.remaining = s.rest.items := by
  rw [MergeSource.advanced] at member
  cases shape : s.rest.items with
  | nil =>
    rw [shape] at member
    cases member
  | cons item items =>
    rw [shape] at member
    obtain rfl := mem_singleton.mp member
    have sorted := (pairwise_cons.mp sound.sorted).2
    rw [shape] at sorted
    exact ⟨⟨sorted, sound.whole⟩, rfl, sound.key_lt item (shape ▸ (.head _)), rfl⟩

omit [LinearOrder K] in
theorem mem_rest_iff {s : MergeSource K V} (item : K × V) :
    item ∈ s.rest.items ↔ ∃ t ∈ s.advanced, item ∈ t.remaining := by
  rw [MergeSource.advanced]
  cases shape : s.rest.items with
  | nil => simp
  | cons first items => simp [remaining]

end MergeSource

namespace KWayMerge

theorem advance_eq {s : MergeSource K V} (sound : s.Sound) (heap : List (MergeSource K V)) :
    advance s heap = some (s.advanced ++ heap) := by
  rw [advance, pull, advanced]
  cases shape : s.rest.items with
  | nil => simp [sound.whole]
  | cons item items =>
    have beyond : s.key < item.1 := sound.key_lt item (shape ▸ (.head _))
    simp [beyond.not_ge]

def past (key : K) (s : MergeSource K V) : List (MergeSource K V) :=
  if s.key = key then s.advanced else [s]

theorem flatMap_past_of_ne (key : K) (heap : List (MergeSource K V))
    (beyond : ∀ s ∈ heap, s.key ≠ key) : heap.flatMap (past key) = heap := by
  induction heap with
  | nil => rfl
  | cons s rest ih =>
    rw [flatMap_cons, past, if_neg (beyond s (.head _)),
      ih fun t member => beyond t (.tail _ member)]
    rfl

theorem dropKey_spec (key : K) (fuel : Nat) (heap : List (MergeSource K V))
    (sound : ∀ s ∈ heap, s.Sound) (above : ∀ s ∈ heap, key ≤ s.key)
    (enough : heap.countP (fun s => s.key = key) ≤ fuel) :
    ∃ after, dropKey key fuel heap = some after ∧ after.Perm (heap.flatMap (past key)) := by
  induction fuel generalizing heap with
  | zero =>
    have beyond : ∀ s ∈ heap, s.key ≠ key := by
      simpa [countP_eq_zero] using enough
    exact ⟨heap, rfl, by rw [flatMap_past_of_ne key heap beyond]⟩
  | succ fuel ih =>
    rw [dropKey]
    cases popped : popMin heap with
    | none =>
      rw [popMin_none heap popped]
      exact ⟨[], rfl, List.Perm.refl _⟩
    | some found =>
      obtain ⟨top, others⟩ := found
      obtain ⟨perm, least⟩ := popMin_some heap others top popped
      have member : ∀ s, s = top ∨ s ∈ others → s ∈ heap :=
        fun s either => perm.mem_iff.mp (mem_cons.mpr either)
      by_cases here : top.key = key
      · have topSound := sound top (member top (.inl rfl))
        have beyond : ∀ t ∈ top.advanced, t.key ≠ key := by
          intro t next
          exact here ▸ (topSound.advanced next).2.2.1.ne'
        have fewer : (top.advanced ++ others).countP (fun s => s.key = key) ≤ fuel := by
          have split := perm.countP_eq fun s : MergeSource K V => decide (s.key = key)
          have gone : top.advanced.countP (fun s => s.key = key) = 0 := by
            simpa [countP_eq_zero] using beyond
          rw [countP_cons_of_pos (by simpa using here)] at split
          rw [countP_append, gone]
          omega
        obtain ⟨after, dropped, same⟩ := ih (top.advanced ++ others)
          (forall_mem_append.mpr ⟨fun _ next => (topSound.advanced next).1,
            fun s old => sound s (member s (.inr old))⟩)
          (forall_mem_append.mpr ⟨fun _ next => here ▸ (topSound.advanced next).2.2.1.le,
            fun s old => above s (member s (.inr old))⟩)
          fewer
        refine ⟨after, ?_, same.trans ?_⟩
        · simp only [if_pos here, advance_eq topSound, bind_some]
          exact dropped
        · rw [flatMap_append, flatMap_past_of_ne key _ beyond]
          refine List.Perm.trans ?_ (perm.flatMap_right (past key))
          rw [flatMap_cons, past, if_pos here]
      · have beyond : ∀ s ∈ heap, s.key ≠ key := by
          intro s inside same
          have smallest := (not_less (least s inside)).1
          exact here (le_antisymm (same ▸ smallest) (above top (member top (.inl rfl))))
        exact ⟨heap, by simp only [if_neg here], by rw [flatMap_past_of_ne key heap beyond]⟩

def Newest (heap : List (MergeSource K V)) (key : K) (value : V) : Prop :=
  ∃ s ∈ heap, (key, value) ∈ s.remaining ∧
    ∀ t ∈ heap, ∀ other, (key, other) ∈ t.remaining → t.srcIdx ≤ s.srcIdx

instance : Std.Symm fun left right : MergeSource K V => left.srcIdx ≠ right.srcIdx :=
  ⟨fun _ _ different => different.symm⟩

structure Sorted (heap : List (MergeSource K V)) : Prop where
  sound : ∀ s ∈ heap, s.Sound
  distinct : heap.Pairwise fun left right => left.srcIdx ≠ right.srcIdx

omit [LinearOrder K] in
theorem Newest.perm {first second : List (MergeSource K V)} (perm : first.Perm second) (key : K)
    (value : V) : Newest first key value ↔ Newest second key value := by
  simp only [Newest, perm.mem_iff]

theorem Sorted.perm {first second : List (MergeSource K V)} (perm : first.Perm second)
    (sorted : Sorted first) : Sorted second where
  sound s member := sorted.sound s (perm.mem_iff.mpr member)
  distinct := (perm.pairwise_iff fun different => Ne.symm different).mp sorted.distinct

section Round

variable {heap : List (MergeSource K V)} {top : MergeSource K V}

theorem mem_past (sound : ∀ s ∈ heap, s.Sound) (above : ∀ s ∈ heap, top.key ≤ s.key)
    {s t : MergeSource K V} (inside : s ∈ heap) (member : t ∈ past top.key s) :
    t.Sound ∧ t.srcIdx = s.srcIdx ∧ top.key < t.key ∧ ∀ item ∈ t.remaining, item ∈ s.remaining := by
  by_cases here : s.key = top.key
  · rw [past, if_pos here] at member
    obtain ⟨next, same, beyond, items⟩ := (sound s inside).advanced member
    exact ⟨next, same, here ▸ beyond, fun item held => .tail _ (items ▸ held)⟩
  · rw [past, if_neg here, mem_singleton] at member
    subst member
    exact ⟨sound t inside, rfl, lt_of_le_of_ne (above t inside) (Ne.symm here), fun _ held => held⟩

theorem exists_past (sound : ∀ s ∈ heap, s.Sound) {s : MergeSource K V} (inside : s ∈ heap)
    (key : K) (value : V) (held : (key, value) ∈ s.remaining) (beyond : top.key < key) :
    ∃ t ∈ past top.key s, (key, value) ∈ t.remaining ∧ t.srcIdx = s.srcIdx := by
  by_cases here : s.key = top.key
  · rw [past, if_pos here]
    rcases mem_cons.mp held with same | later
    · exact absurd ((Prod.mk.inj same).1.trans here) beyond.ne'
    · obtain ⟨t, next, inT⟩ := (mem_rest_iff (key, value)).mp later
      exact ⟨t, next, inT, ((sound s inside).advanced next).2.1⟩
  · rw [past, if_neg here]
    exact ⟨s, mem_singleton_self s, held, rfl⟩

theorem newest_past (sound : ∀ s ∈ heap, s.Sound) (above : ∀ s ∈ heap, top.key ≤ s.key)
    (key : K) (value : V) :
    Newest (heap.flatMap (past top.key)) key value ↔ top.key < key ∧ Newest heap key value := by
  constructor
  · rintro ⟨t, member, held, latest⟩
    obtain ⟨s, inside, member⟩ := mem_flatMap.mp member
    obtain ⟨tSound, same, beyond, items⟩ := mem_past sound above inside member
    have later : top.key < key := by
      rcases mem_cons.mp held with here | behind
      · exact (Prod.mk.inj here).1 ▸ beyond
      · exact beyond.trans (tSound.key_lt _ behind)
    refine ⟨later, s, inside, items _ held, fun other otherInside otherValue otherHeld => ?_⟩
    obtain ⟨u, uMember, uHeld, uSame⟩ :=
      exists_past sound otherInside key otherValue otherHeld later
    rw [← same, ← uSame]
    exact latest u (mem_flatMap.mpr ⟨other, otherInside, uMember⟩) otherValue uHeld
  · rintro ⟨later, s, inside, held, latest⟩
    obtain ⟨t, member, tHeld, same⟩ := exists_past sound inside key value held later
    refine ⟨t, mem_flatMap.mpr ⟨s, inside, member⟩, tHeld, ?_⟩
    intro u uMember otherValue uHeld
    obtain ⟨other, otherInside, uMember⟩ := mem_flatMap.mp uMember
    obtain ⟨_, uSame, _, items⟩ := mem_past sound above otherInside uMember
    rw [same, uSame]
    exact latest other otherInside otherValue (items _ uHeld)

theorem newest_top (sorted : Sorted heap) (inside : top ∈ heap)
    (least : ∀ s ∈ heap, ¬ Less s top) (value : V) :
    Newest heap top.key value ↔ value = top.value := by
  -- A source with the key has it as its next item, because no source is behind the least one.
  have first : ∀ s ∈ heap, ∀ other, (top.key, other) ∈ s.remaining →
      s.key = top.key ∧ s.value = other := by
    intro s member other held
    rcases mem_cons.mp held with here | behind
    · obtain ⟨key, value⟩ := Prod.mk.inj here
      exact ⟨key.symm, value.symm⟩
    · exact absurd ((sorted.sound s member).key_lt _ behind) (not_less (least s member)).1.not_gt
  constructor
  · rintro ⟨s, member, held, latest⟩
    obtain ⟨key, same⟩ := first s member value held
    have older := (not_less (least s member)).2 key
    have newer := latest top inside top.value (.head _)
    by_contra different
    have apart : s ≠ top := fun equal => different (by rw [← same, equal])
    exact sorted.distinct.forall member inside apart (le_antisymm older newer)
  · rintro rfl
    refine ⟨top, inside, .head _, fun s member other held => ?_⟩
    exact (not_less (least s member)).2 (first s member other held).1

theorem Sorted.past (sorted : Sorted heap) (above : ∀ s ∈ heap, top.key ≤ s.key) :
    Sorted (heap.flatMap (past top.key)) where
  sound t member := by
    obtain ⟨s, inside, member⟩ := mem_flatMap.mp member
    exact (mem_past sorted.sound above inside member).1
  distinct := by
    rw [pairwise_flatMap]
    refine ⟨fun s _ => ?_, ?_⟩
    · rw [KWayMerge.past, advanced]
      split_ifs
      · cases s.rest.items <;> simp
      · exact pairwise_singleton _ s
    · refine sorted.distinct.imp_of_mem fun {left right} inLeft inRight different t tIn u uIn => ?_
      rw [(mem_past sorted.sound above inLeft tIn).2.1, (mem_past sorted.sound above inRight uIn).2.1]
      exact different

theorem size_past (inside : top ∈ heap) : size (heap.flatMap (past top.key)) < size heap := by
  have shrinks : ∀ s : MergeSource K V, size (past top.key s) ≤ s.remaining.length ∧
      (s.key = top.key → size (past top.key s) < s.remaining.length) := by
    intro s
    rw [past, advanced]
    by_cases here : s.key = top.key
    · rw [if_pos here]
      cases shape : s.rest.items <;> simp [size, remaining, shape]
    · rw [if_neg here]
      exact ⟨by simp [size], fun same => absurd same here⟩
  have total : size (heap.flatMap (past top.key)) = (heap.map fun s => size (past top.key s)).sum := by
    simp [size, List.flatMap, sum_flatten, Function.comp_def]
  rw [total]
  exact sum_lt_sum _ _ (fun s _ => (shrinks s).1) ⟨top, inside, (shrinks top).2 rfl⟩

end Round

/-- One round takes the least source and leaves of the others what is beyond its key. -/
theorem next_spec {heap others : List (MergeSource K V)} {top : MergeSource K V}
    (sound : ∀ s ∈ heap, s.Sound) (popped : popMin heap = some (top, others)) :
    ∃ after, next top others = some after ∧ after.Perm (heap.flatMap (past top.key)) := by
  obtain ⟨perm, least⟩ := popMin_some heap others top popped
  have inside : top ∈ heap := perm.mem_iff.mp (.head _)
  have topSound := sound top inside
  have beyond : ∀ t ∈ top.advanced, t.key ≠ top.key :=
    fun t member => (topSound.advanced member).2.2.1.ne'
  obtain ⟨after, dropped, same⟩ := dropKey_spec top.key (top.advanced ++ others).length
    (top.advanced ++ others)
    (forall_mem_append.mpr ⟨fun _ next => (topSound.advanced next).1,
      fun s old => sound s (perm.mem_iff.mp (.tail _ old))⟩)
    (forall_mem_append.mpr ⟨fun _ next => (topSound.advanced next).2.2.1.le,
      fun s old => (not_less (least s (perm.mem_iff.mp (.tail _ old)))).1⟩)
    countP_le_length
  refine ⟨after, ?_, same.trans ?_⟩
  · rw [next, advance_eq topSound, bind_some, dropped]
  · rw [flatMap_append, flatMap_past_of_ne top.key _ beyond]
    refine List.Perm.trans ?_ (perm.flatMap_right (past top.key))
    rw [flatMap_cons, past, if_pos rfl]

theorem mergeAll_spec (fuel : Nat) (heap : List (MergeSource K V)) (sorted : Sorted heap)
    (enough : size heap ≤ fuel) :
    (mergeAll fuel heap).2 = false ∧ (mergeAll fuel heap).1.Pairwise KeyLt ∧
      ∀ key value, (key, value) ∈ (mergeAll fuel heap).1 ↔ Newest heap key value := by
  induction fuel generalizing heap with
  | zero =>
    have empty : heap = [] := by
      cases heap with
      | nil => rfl
      | cons s rest => simp [size, remaining] at enough
    subst empty
    exact ⟨rfl, List.Pairwise.nil, by simp [mergeAll, Newest]⟩
  | succ fuel ih =>
    rw [mergeAll]
    cases popped : popMin heap with
    | none =>
      rw [popMin_none heap popped]
      exact ⟨rfl, List.Pairwise.nil, by simp [Newest]⟩
    | some found =>
      obtain ⟨top, others⟩ := found
      obtain ⟨popPerm, least⟩ := popMin_some heap others top popped
      have inside : top ∈ heap := popPerm.mem_iff.mp (.head _)
      have above : ∀ s ∈ heap, top.key ≤ s.key := fun s member => (not_less (least s member)).1
      obtain ⟨after, round, perm⟩ := next_spec sorted.sound popped
      have smaller : size after ≤ fuel := by
        have shrunk := size_past inside
        rw [size, ← (perm.map fun s => s.remaining.length).sum_eq] at shrunk
        rw [size]
        omega
      obtain ⟨fine, ascending, members⟩ :=
        ih after ((sorted.past above).perm perm.symm) smaller
      have behind : ∀ key value, (key, value) ∈ (mergeAll fuel after).1 ↔
          top.key < key ∧ Newest heap key value := by
        intro key value
        rw [members, Newest.perm perm, newest_past sorted.sound above]
      simp only [round]
      refine ⟨fine, pairwise_cons.mpr ⟨fun item member => ?_, ascending⟩, ?_⟩
      · exact ((behind item.1 item.2).mp member).1
      · intro key value
        rw [mem_cons, behind]
        constructor
        · rintro (here | ⟨_, newest⟩)
          · obtain ⟨rfl, rfl⟩ := Prod.mk.inj here
            exact (newest_top sorted inside least _).mpr rfl
          · exact newest
        · intro newest
          by_cases here : key = top.key
          · subst here
            rw [(newest_top sorted inside least value).mp newest]
            exact .inl rfl
          · obtain ⟨s, member, held, latest⟩ := newest
            have reached : top.key ≤ key := by
              rcases mem_cons.mp held with same | later
              · exact (Prod.mk.inj same).1 ▸ above s member
              · exact (above s member).trans ((sorted.sound s member).key_lt _ later).le
            exact .inr ⟨lt_of_le_of_ne reached (Ne.symm here), s, member, held, latest⟩

omit [LinearOrder K] in
theorem exists_newest (heap : List (MergeSource K V)) (key : K) (s : MergeSource K V) (value : V)
    (inside : s ∈ heap) (held : (key, value) ∈ s.remaining) : ∃ value, Newest heap key value := by
  classical
  let holders := heap.filter fun t => ∃ other, (key, other) ∈ t.remaining
  have nonempty : s ∈ holders := mem_filter.mpr ⟨inside, by simpa using ⟨value, held⟩⟩
  obtain ⟨best, isBest⟩ : ∃ best, best ∈ List.argmax (fun t => t.srcIdx) holders := by
    cases found : List.argmax (fun t : MergeSource K V => t.srcIdx) holders with
    | none => rw [argmax_eq_none.mp found] at nonempty; cases nonempty
    | some best => exact ⟨best, rfl⟩
  obtain ⟨member, holds⟩ := mem_filter.mp (argmax_mem isBest)
  obtain ⟨other, otherHeld⟩ := of_decide_eq_true holds
  refine ⟨other, best, member, otherHeld, fun t tInside tValue tHeld => ?_⟩
  exact le_of_mem_argmax (mem_filter.mpr ⟨tInside, by simpa using ⟨tValue, tHeld⟩⟩) isBest

end KWayMerge

structure Feed.Sound (feed : Feed K V) : Prop where
  sorted : feed.items.Pairwise KeyLt
  whole : feed.failed = false

def Feed.layer (feed : Feed K V) : Layer K V := ofEntries feed.items

namespace KWayMerge

theorem pull_sound (srcIdx : Nat) (feed : Feed K V) (sound : feed.Sound) :
    ∃ head, pull srcIdx none feed = some head ∧ (∀ s ∈ head, s.Sound ∧ s.srcIdx = srcIdx) ∧
      (head.Pairwise fun left right => left.srcIdx ≠ right.srcIdx) ∧
      ∀ item, item ∈ feed.items ↔ ∃ s ∈ head, item ∈ s.remaining := by
  rw [pull]
  cases shape : feed.items with
  | nil => exact ⟨[], by simp [sound.whole], by simp, List.Pairwise.nil, by simp⟩
  | cons item items =>
    have sorted := sound.sorted
    rw [shape] at sorted
    refine ⟨_, rfl, forall_mem_singleton.mpr ⟨⟨sorted, sound.whole⟩, rfl⟩,
      pairwise_singleton _ _, fun other => ?_⟩
    simp [remaining]

omit [LinearOrder K] in
theorem newest_append (head heap : List (MergeSource K V)) (srcIdx : Nat)
    (same : ∀ s ∈ head, s.srcIdx = srcIdx) (older : ∀ s ∈ heap, srcIdx < s.srcIdx) (key : K)
    (value : V) : Newest (head ++ heap) key value ↔ Newest heap key value ∨
      (∀ other, ¬ Newest heap key other) ∧ ∃ s ∈ head, (key, value) ∈ s.remaining := by
  constructor
  · rintro ⟨s, inside, held, latest⟩
    rcases mem_append.mp inside with inHead | inHeap
    · refine .inr ⟨?_, s, inHead, held⟩
      rintro other ⟨t, member, tHeld, _⟩
      have newer := older t member
      have least := latest t (mem_append_right head member) other tHeld
      rw [same s inHead] at least
      omega
    · exact .inl ⟨s, inHeap, held, fun t member => latest t (mem_append_right head member)⟩
  · rintro (⟨s, inside, held, latest⟩ | ⟨absent, s, inside, held⟩)
    · refine ⟨s, mem_append_right head inside, held, fun t member other tHeld => ?_⟩
      rcases mem_append.mp member with inHead | inHeap
      · rw [same t inHead]
        exact (older s inside).le
      · exact latest t inHeap other tHeld
    · refine ⟨s, mem_append_left heap inside, held, fun t member other tHeld => ?_⟩
      rcases mem_append.mp member with inHead | inHeap
      · rw [same t inHead, same s inside]
      · obtain ⟨found, newest⟩ := exists_newest heap key t other inHeap tHeld
        exact absurd newest (absent found)

theorem start_spec (srcIdx : Nat) (feeds : List (Feed K V)) (sound : ∀ feed ∈ feeds, feed.Sound) :
    ∃ heap, start srcIdx feeds = some heap ∧ Sorted heap ∧ (∀ s ∈ heap, srcIdx ≤ s.srcIdx) ∧
      ∀ key value, Newest heap key value ↔ stack (feeds.map Feed.layer) key = some value := by
  induction feeds generalizing srcIdx with
  | nil =>
    refine ⟨[], rfl, ⟨by simp, List.Pairwise.nil⟩, by simp, fun key value => ?_⟩
    simp [Newest, stack, Layer.empty]
  | cons feed feeds ih =>
    have feedSound := sound feed (.head _)
    obtain ⟨head, pulled, headSound, headDistinct, headItems⟩ := pull_sound srcIdx feed feedSound
    obtain ⟨heap, started, sorted, newer, newest⟩ :=
      ih (srcIdx + 1) fun other member => sound other (.tail _ member)
    have same : ∀ s ∈ head, s.srcIdx = srcIdx := fun s member => (headSound s member).2
    refine ⟨head ++ heap, by rw [start, pulled, bind_some, started]; rfl, ⟨?_, ?_⟩, ?_, ?_⟩
    · exact forall_mem_append.mpr ⟨fun s member => (headSound s member).1, sorted.sound⟩
    · refine pairwise_append.mpr ⟨headDistinct, sorted.distinct, ?_⟩
      intro s inHead t inHeap
      have later := newer t inHeap
      rw [same s inHead]
      omega
    · refine forall_mem_append.mpr ⟨fun s member => (same s member).ge, ?_⟩
      exact fun s member => le_trans (Nat.le_succ srcIdx) (newer s member)
    · intro key value
      have silent : (∀ other, ¬ Newest heap key other) ↔
          stack (feeds.map Feed.layer) key = none := by
        simp only [newest, eq_none_iff_forall_ne_some, ne_eq]
      have front : (∃ s ∈ head, (key, value) ∈ s.remaining) ↔ feed.layer key = some value := by
        rw [← headItems]
        exact SortedMap.mem_iff_lookupIn feed.items feedSound.sorted key value
      rw [newest_append head heap srcIdx same newer, newest, silent, front, map_cons, stack, above]
      cases stack (feeds.map Feed.layer) key <;> simp

/-- The merge of sound feeds is the sorted list of what they say on top of each other. -/
theorem merge_spec (feeds : List (Feed K V)) (sound : ∀ feed ∈ feeds, feed.Sound) :
    (merge feeds).2 = false ∧ (merge feeds).1.Pairwise KeyLt ∧
      ofEntries (merge feeds).1 = stack (feeds.map Feed.layer) := by
  obtain ⟨heap, started, sorted, _, newest⟩ := start_spec 0 feeds sound
  obtain ⟨fine, ascending, members⟩ := mergeAll_spec (size heap) heap sorted (le_refl _)
  rw [merge, started]
  refine ⟨fine, ascending, ?_⟩
  funext key
  apply ext
  intro value
  rw [← newest, ← members]
  exact (SortedMap.mem_iff_lookupIn _ ascending key value).symm

/-- Behind an item with the key `prev` the feed breaks off, before it comes to the key `bound`: with
an error or with an item that does not go beyond the one before it. -/
def Breaks (bound : K) (failed : Bool) : Option K → List (K × V) → Prop
  | _, [] => failed = true
  | prev, item :: items => prev.any (fun before => decide (item.1 ≤ before)) = true ∨
      item.1 < bound ∧ Breaks bound failed (some item.1) items

/-- The source has the key of its next item and breaks off behind it. -/
def BreaksOff (bound : K) (s : MergeSource K V) : Prop :=
  s.key < bound ∧ Breaks bound s.rest.failed (some s.key) s.rest.items

variable {bound : K}

theorem pull_breaks (srcIdx : Nat) (prev : Option K) (feed : Feed K V) (head : List (MergeSource K V))
    (breaks : Breaks bound feed.failed prev feed.items) (pulled : pull srcIdx prev feed = some head) :
    ∃ s ∈ head, BreaksOff bound s := by
  rw [pull] at pulled
  cases shape : feed.items with
  | nil =>
    rw [shape] at breaks pulled
    simp only [show feed.failed = true from breaks] at pulled
    cases pulled
  | cons item items =>
    rw [shape] at breaks pulled
    rcases breaks with unsorted | goesOn
    · simp only [unsorted] at pulled
      cases pulled
    · simp only at pulled
      split at pulled
      · cases pulled
      · cases pulled
        exact ⟨_, mem_singleton_self _, goesOn⟩

theorem advance_breaks (top : MergeSource K V) (others heap : List (MergeSource K V))
    (advanced : advance top others = some heap) (breaks : ∃ s ∈ top :: others, BreaksOff bound s) :
    ∃ s ∈ heap, BreaksOff bound s := by
  rcases breaks with ⟨s, inside, breaks⟩
  rcases map_eq_some_iff.mp advanced with ⟨head, pulled, rfl⟩
  rcases mem_cons.mp inside with rfl | other
  · rcases pull_breaks _ _ _ _ breaks.2 pulled with ⟨next, member, goesOn⟩
    exact ⟨next, mem_append_left _ member, goesOn⟩
  · exact ⟨s, mem_append_right _ other, breaks⟩

theorem popMin_breaks (heap others : List (MergeSource K V)) (top : MergeSource K V)
    (popped : popMin heap = some (top, others)) (breaks : ∃ s ∈ heap, BreaksOff bound s) :
    ∃ s ∈ top :: others, BreaksOff bound s := by
  rcases breaks with ⟨s, inside, breaks⟩
  exact ⟨s, (popMin_some heap others top popped).1.mem_iff.mpr inside, breaks⟩

theorem dropKey_breaks (key : K) (fuel : Nat) (heap after : List (MergeSource K V))
    (dropped : dropKey key fuel heap = some after) (breaks : ∃ s ∈ heap, BreaksOff bound s) :
    ∃ s ∈ after, BreaksOff bound s := by
  induction fuel generalizing heap with
  | zero =>
    cases dropped
    exact breaks
  | succ fuel ih =>
    rw [dropKey] at dropped
    cases popped : popMin heap with
    | none =>
      rw [popped] at dropped
      cases dropped
      exact breaks
    | some found =>
      rcases found with ⟨top, others⟩
      simp only [popped] at dropped
      split at dropped
      · rcases bind_eq_some_iff.mp dropped with ⟨next, advanced, dropped⟩
        exact ih next dropped
          (advance_breaks top others next advanced (popMin_breaks heap others top popped breaks))
      · cases dropped
        exact breaks

theorem mergeAll_breaks (fuel : Nat) (heap : List (MergeSource K V))
    (breaks : ∃ s ∈ heap, BreaksOff bound s) :
    ∀ entry ∈ (mergeAll fuel heap).1, entry.1 < bound := by
  induction fuel generalizing heap with
  | zero => exact nofun
  | succ fuel ih =>
    intro entry member
    rw [mergeAll] at member
    cases popped : popMin heap with
    | none =>
      rw [popped] at member
      cases member
    | some found =>
      rcases found with ⟨top, others⟩
      simp only [popped] at member
      cases stepped : next top others with
      | none =>
        rw [stepped] at member
        cases member
      | some after =>
        simp only [stepped] at member
        rcases mem_cons.mp member with rfl | later
        · rcases breaks with ⟨s, inside, breaks⟩
          exact (not_less ((popMin_some heap others top popped).2 s inside)).1.trans_lt breaks.1
        · rcases bind_eq_some_iff.mp stepped with ⟨heap', advanced, dropped⟩
          exact ih after (dropKey_breaks _ _ _ _ dropped (advance_breaks _ _ _ advanced
            (popMin_breaks heap others top popped breaks))) entry later

theorem start_breaks (srcIdx : Nat) (feeds : List (Feed K V)) (heap : List (MergeSource K V))
    (started : start srcIdx feeds = some heap)
    (breaks : ∃ feed ∈ feeds, Breaks bound feed.failed none feed.items) :
    ∃ s ∈ heap, BreaksOff bound s := by
  induction feeds generalizing srcIdx heap with
  | nil =>
    rcases breaks with ⟨_, member, _⟩
    cases member
  | cons feed feeds ih =>
    rcases breaks with ⟨broken, member, breaks⟩
    rcases bind_eq_some_iff.mp started with ⟨head, pulled, started⟩
    rcases map_eq_some_iff.mp started with ⟨rest, startedRest, rfl⟩
    rcases mem_cons.mp member with rfl | later
    · rcases pull_breaks _ _ _ _ breaks pulled with ⟨s, inside, breaks⟩
      exact ⟨s, mem_append_left _ inside, breaks⟩
    · rcases ih (srcIdx + 1) rest startedRest ⟨broken, later, breaks⟩ with ⟨s, inside, breaks⟩
      exact ⟨s, mem_append_right _ inside, breaks⟩

/-- One feed that breaks off keeps all keys from the bound on out of the merge. -/
theorem merge_breaks (feeds : List (Feed K V)) (feed : Feed K V) (member : feed ∈ feeds)
    (breaks : Breaks bound feed.failed none feed.items) :
    ∀ entry ∈ (merge feeds).1, entry.1 < bound := by
  rw [merge]
  cases started : start 0 feeds with
  | none => exact nofun
  | some heap => exact mergeAll_breaks _ heap (start_breaks 0 feeds heap started ⟨feed, member, breaks⟩)

theorem breaks_of_sorted (failed : Bool) (prev : Option K) (items more : List (K × V))
    (below : ∀ item ∈ items, item.1 < bound)
    (ends : Breaks bound failed ((items.getLast?.map Prod.fst).or prev) more) :
    Breaks bound failed prev (items ++ more) := by
  induction items generalizing prev with
  | nil => simpa using ends
  | cons item items ih =>
    refine .inr ⟨below item (.head _), ?_⟩
    apply ih (some item.1) fun other member => below other (.tail _ member)
    cases items with
    | nil => simpa using ends
    | cons next items =>
      exact ends

end KWayMerge

end KairosFlux.Lib
