import KairosFlux.Service.Writers

/-! What concurrent puts leave behind: no number is given twice and every returned version is listed.
The condition on the reads is met when each key is put through one store only. -/

namespace KairosFlux.Service

open Lib Temporal List Function TemporalStore

variable {writers : List Writer} {s : Shared} {order : List (Nat × Version)}
  {pointed : List Version}

theorem length_le_of_indices (indices : List Nat) (once : indices.Nodup) (bound : Nat)
    (below : ∀ t ∈ indices, t < bound) : indices.length ≤ bound := by
  have inside : indices ⊆ List.range bound := fun t member => mem_range.mpr (below t member)
  have fits := (once.subperm inside).length_le
  rwa [length_range] at fits

theorem seqsOf_length_le (logical : Bytes) (versions : List Version) :
    (seqsOf logical versions).length ≤ versions.length := by
  rw [seqsOf_length]
  exact length_filter_le _ _

section

variable (inOrder : InOrder writers s order pointed)
include inOrder

theorem InOrder.below : ∀ t ∈ order.map Prod.fst, t < writers.length := by
  intro t member
  obtain ⟨e, inside, rfl⟩ := mem_map.mp member
  obtain ⟨w, seq, isWriter, _⟩ := inOrder.entry e inside
  exact (List.getElem?_eq_some_iff.mp isWriter).1

section

variable (bounded : writers.length ≤ 2 ^ 64)
include bounded

theorem InOrder.distinct (logical : Bytes) : (seqsOf logical (order.map Prod.snd)).Nodup := by
  refine (inOrder.numbered logical).nodup _ ?_
  have total := length_le_of_indices _ inOrder.once _ inOrder.below
  have onKey := seqsOf_length_le logical (order.map Prod.snd)
  rw [length_map] at total onKey
  omega

theorem InOrder.due_fresh (t : Nat) (w : Writer) (seq : UInt64)
    (writer : writers[t]? = some w) (phase : s.phases t = .versionDue seq) :
    seq ∉ seqsOf w.call.logical (order.map Prod.snd) := by
  have extended := (inOrder.numbered w.call.logical).snoc _ seq (inOrder.due t w seq writer phase)
  have unstored : t ∉ order.map Prod.fst := by
    intro member
    obtain ⟨e, inside, rfl⟩ := mem_map.mp member
    obtain ⟨x, number, _, _, storedPhase⟩ := inOrder.entry e inside
    rw [phase] at storedPhase
    exact absurd storedPhase (by simp)
  have total := length_le_of_indices (t :: order.map Prod.fst)
    (nodup_cons.mpr ⟨unstored, inOrder.once⟩) writers.length (by
      intro u member
      rcases mem_cons.mp member with rfl | member
      · exact (List.getElem?_eq_some_iff.mp writer).1
      · exact inOrder.below u member)
  have onKey := seqsOf_length_le w.call.logical (order.map Prod.snd)
  have distinct := extended.nodup _ (by
    rw [length_append, length_singleton]
    rw [length_cons] at total
    rw [length_map] at total onKey
    omega)
  intro member
  exact (nodup_append.mp distinct).2.2 seq member seq (by simp) rfl

theorem InOrder.recorded_ne (t u : Nat) (first second : Version)
    (stored : (t, first) ∈ order) (other : (u, second) ∈ order)
    (sameKey : first.logicalKey = second.logicalKey) (different : t ≠ u) :
    first.seq ≠ second.seq := by
  intro same
  let onThisKey := order.filter fun e => e.2.logicalKey = first.logicalKey
  have distinct : (onThisKey.map fun e => e.2.seq).Nodup := by
    have whole := inOrder.distinct bounded first.logicalKey
    rw [seqsOf, onKey, filter_map, map_map] at whole
    exact whole
  have firstIn : (t, first) ∈ onThisKey := by simp [onThisKey, stored]
  have secondIn : (u, second) ∈ onThisKey := by simp [onThisKey, other, sameKey]
  have equal := inj_on_of_nodup_map distinct firstIn secondIn same
  exact different (congrArg Prod.fst equal)

theorem InOrder.assigned_ne (t u : Nat) (w x : Writer) (seq : UInt64)
    (different : t ≠ u) (writer : writers[t]? = some w) (other : writers[u]? = some x)
    (sameKey : w.call.logical = x.call.logical) (assigned : (s.phases t).assigned = some seq) :
    (s.phases u).assigned ≠ some seq := by
  intro otherAssigned
  -- A call that has stored its version is in the order; one that has not is alone on its key.
  have split : ∀ t, (s.phases t).assigned = some seq →
      s.phases t = .versionDue seq ∨ s.phases t = .currentDue seq ∨ s.phases t = .returned seq := by
    intro t given
    cases phase : s.phases t <;> simp_all [Phase.assigned]
  have listed : ∀ t w, writers[t]? = some w →
      s.phases t = .currentDue seq ∨ s.phases t = .returned seq →
        seq ∈ seqsOf w.call.logical (order.map Prod.snd) := by
    intro t w writer stored
    have member := mem_map_of_mem (f := Prod.snd) (inOrder.recorded t w seq writer stored)
    exact mem_map.mpr ⟨_, (mem_onKey _ _ _).mpr ⟨member, rfl⟩, rfl⟩
  rcases split t assigned with due | stored
  · rcases split u otherAssigned with otherDue | otherStored
    · apply different
      apply inOrder.alone t u w x writer other sameKey
      · rw [due, Phase.inside]
      · rw [otherDue, Phase.inside]
    · exact inOrder.due_fresh bounded t w seq writer due (sameKey ▸ listed u x other otherStored)
  · rcases split u otherAssigned with otherDue | otherStored
    · exact inOrder.due_fresh bounded u x seq other otherDue (sameKey ▸ listed t w writer stored)
    · exact inOrder.recorded_ne bounded t u _ _ (inOrder.recorded t w seq writer stored)
        (inOrder.recorded u x seq other otherStored) sameKey different rfl

theorem InOrder.listed (fits : ∀ w ∈ writers, w.call.source.length < 2 ^ 32)
    (t : Nat) (w : Writer) (seq : UInt64) (inst : Nat) (writer : writers[t]? = some w)
    (returned : s.phases t = .returned seq) :
    newVersion w.call seq ∈ (s.view inst).listVersions w.call.logical := by
  have readable : ∀ v ∈ onKey w.call.logical (order.map Prod.snd), Readable v := by
    intro v member
    obtain ⟨e, inside, rfl⟩ := mem_map.mp ((mem_onKey _ _ _).mp member).1
    obtain ⟨x, number, isWriter, shape, _⟩ := inOrder.entry e inside
    rw [shape]
    exact readable_newVersion x.call number (fits x (mem_of_getElem? isWriter))
  have stored := mem_map_of_mem (f := Prod.snd)
    (inOrder.recorded t w seq writer (.inr returned))
  have viewHolds : Holds (s.view inst).store (order.map Prod.snd) pointed := inOrder.holds
  rw [viewHolds.mem_listVersions w.call.logical (inOrder.distinct bounded w.call.logical) readable]
  exact (mem_onKey _ _ _).mpr ⟨stored, rfl⟩

end

end

/-- Whatever the interleaving, calls that read their numbers fresh never share a number and every
version whose call returned is listed. -/
theorem concurrent_puts_kept (writers : List Writer) (schedule : List Nat)
    (fits : ∀ w ∈ writers, w.call.source.length < 2 ^ 32) (bounded : writers.length ≤ 2 ^ 64)
    (fresh : Guarded (writerStep writers) (ReadsFresh writers) Shared.initial schedule) :
    let final := run (writerStep writers) Shared.initial schedule
    (∀ t u w x seq, t ≠ u → writers[t]? = some w → writers[u]? = some x →
        w.call.logical = x.call.logical → (final.phases t).assigned = some seq →
          (final.phases u).assigned ≠ some seq) ∧
      ∀ t w seq inst, writers[t]? = some w → final.phases t = .returned seq →
        newVersion w.call seq ∈ (final.view inst).listVersions w.call.logical := by
  intro final
  have reached : ∃ order pointed, InOrder writers final order pointed := by
    refine @Guarded.invariant _ _ _ _ (fun s => ∃ order pointed, InOrder writers s order pointed) ?_
      Shared.initial schedule ⟨[], [], InOrder.initial writers⟩ fresh
    intro s t inv readsFresh
    obtain ⟨order, pointed, inOrder⟩ := inv
    exact inOrder.step t readsFresh
  obtain ⟨order, pointed, inOrder⟩ := reached
  constructor
  · intro t u w x seq different writer other sameKey assigned
    exact inOrder.assigned_ne bounded t u w x seq different writer other sameKey assigned
  · intro t w seq inst writer returned
    exact inOrder.listed bounded fits t w seq inst writer returned

def OneStorePerKey (writers : List Writer) : Prop :=
  ∀ w ∈ writers, ∀ x ∈ writers, w.call.logical = x.call.logical → w.inst = x.inst
deriving Decidable

/-- A cached number is the last one pointed to and was put there by a writer of that store. -/
def CachesOwned (writers : List Writer) (s : Shared) (pointed : List Version) : Prop :=
  ∀ inst logical cached, s.caches inst logical = some cached →
    (∃ v, (onKey logical pointed).getLast? = some v ∧ v.seq = cached) ∧
      ∃ w ∈ writers, w.inst = inst ∧ w.call.logical = logical

section

variable (oneStore : OneStorePerKey writers)
include oneStore

theorem InOrder.readsFresh (inOrder : InOrder writers s order pointed) (owned : CachesOwned writers s pointed) (t : Nat) :
    ReadsFresh writers s t := by
  intro w writer _ _
  constructor
  · intro u other isWriter sameKey otherInst
    have same := oneStore other (mem_of_getElem? isWriter) w (mem_of_getElem? writer) sameKey
    exact absurd same otherInst
  · intro cached present
    obtain ⟨⟨v, last, number⟩, _⟩ := owned w.inst w.call.logical cached present
    have viewHolds : Holds (s.view w.inst).store (order.map Prod.snd) pointed := inOrder.holds
    exact ⟨currentValueOf v, currentPointer_of_pointed viewHolds w.call.logical v last, number⟩

theorem CachesOwned.point (owned : CachesOwned writers s pointed)
    (w : Writer) (member : w ∈ writers) (seq : UInt64) (next : Shared)
    (cached : next.caches = update s.caches w.inst
      ((s.view w.inst).cacheSeq w.call.logical seq).seqCache) :
    CachesOwned writers next (pointed ++ [newVersion w.call seq]) := by
  intro inst logical number present
  rw [cached] at present
  by_cases sameKey : w.call.logical = logical
  · subst sameKey
    by_cases sameInst : inst = w.inst
    · subst sameInst
      rw [update_self, seqCache_cacheSeq, update_self, Option.some.injEq] at present
      refine ⟨⟨newVersion w.call seq, ?_, present⟩, w, member, rfl, rfl⟩
      exact (congrArg List.getLast? (onKey_snoc_same pointed (newVersion w.call seq))).trans
        List.getLast?_concat
    · rw [update_of_ne sameInst] at present
      obtain ⟨_, x, isWriter, itsInst, itsKey⟩ := owned inst _ number present
      exact absurd (itsInst ▸ oneStore x isWriter w member itsKey) sameInst
  · have before : s.caches inst logical = some number := by
      by_cases sameInst : inst = w.inst
      · subst sameInst
        rw [update_self, seqCache_cacheSeq, update_of_ne (Ne.symm sameKey)] at present
        exact present
      · rwa [update_of_ne sameInst] at present
    obtain ⟨last, owner⟩ := owned inst logical number before
    have different : (newVersion w.call seq).logicalKey ≠ logical := sameKey
    rw [onKey_snoc_other _ _ _ different]
    exact ⟨last, owner⟩

theorem guarded_of_oneStorePerKey (schedule : List Nat)
    (inOrder : InOrder writers s order pointed) (owned : CachesOwned writers s pointed) :
    Guarded (writerStep writers) (ReadsFresh writers) s schedule := by
  induction schedule generalizing s order pointed with
  | nil => trivial
  | cons t rest ih =>
    have fresh := inOrder.readsFresh oneStore owned t
    refine ⟨fresh, ?_⟩
    rw [writerStep]
    cases writer : writers[t]? with
    | none => exact ih inOrder owned
    | some w =>
      simp only
      cases phase : s.phases t with
      | waiting =>
        cases held : lockHeld writers s w with
        | true => exact ih inOrder owned
        | false =>
          exact ih (inOrder.start _ t w writer phase held fresh (moves_update s t _ _ _) rfl)
            owned
      | versionDue seq =>
        exact ih (inOrder.storeVersion _ t w seq writer phase (moves_update s t _ _ _) rfl) owned
      | currentDue seq =>
        exact ih (inOrder.point _ t w seq writer phase (moves_update s t _ _ _) rfl)
          (owned.point oneStore w (mem_of_getElem? writer) seq _ rfl)
      | returned seq => exact ih inOrder owned

end

/-- Keys split between the stores meet the condition in every interleaving. -/
theorem readsFresh_of_oneStorePerKey (writers : List Writer) (oneStore : OneStorePerKey writers)
    (schedule : List Nat) :
    Guarded (writerStep writers) (ReadsFresh writers) Shared.initial schedule := by
  apply guarded_of_oneStorePerKey oneStore schedule (InOrder.initial writers)
  intro inst logical cached present
  exact absurd present (by simp [Shared.initial])

theorem concurrent_puts_kept_two_stores :
    let writers : List Writer := [⟨0, ⟨ascii ['k'], ascii ['a'], 1, [], 0⟩⟩,
      ⟨1, ⟨ascii ['j'], ascii ['b'], 2, [], 0⟩⟩, ⟨0, ⟨ascii ['k'], ascii ['c'], 3, [], 0⟩⟩]
    let final := run (writerStep writers) Shared.initial [0, 2, 1, 0, 1, 0, 2, 2, 1, 2]
    final.phases 2 = .returned 2 ∧
      newVersion ⟨ascii ['k'], ascii ['c'], 3, [], 0⟩ 2 ∈
        (final.view 1).listVersions (ascii ['k']) := by
  intro writers
  have kept := concurrent_puts_kept writers [0, 2, 1, 0, 1, 0, 2, 2, 1, 2] (by decide) (by decide)
    (readsFresh_of_oneStorePerKey writers (by decide) _)
  intro final
  have returned : final.phases 2 = .returned 2 := by
    decide +kernel
  exact ⟨returned, kept.2 2 ⟨0, ⟨ascii ['k'], ascii ['c'], 3, [], 0⟩⟩ 2 1 rfl returned⟩

/-- Two stores over one server: the first caches its number, the second reads the pointer and takes
the next one, and the first takes that number again from its cache. -/
theorem second_store_overwritten :
    let writers : List Writer := [⟨0, ⟨ascii ['k'], ascii ['a'], 1, [], 0⟩⟩,
      ⟨1, ⟨ascii ['k'], ascii ['b'], 2, [], 0⟩⟩, ⟨0, ⟨ascii ['k'], ascii ['c'], 3, [], 0⟩⟩]
    let final := run (writerStep writers) Shared.initial [0, 0, 0, 1, 1, 1, 2, 2, 2]
    final.phases 1 = .returned 2 ∧ final.phases 2 = .returned 2 ∧
      newVersion ⟨ascii ['k'], ascii ['b'], 2, [], 0⟩ 2 ∉
        (final.view 1).listVersions (ascii ['k']) := by
  decide +kernel

end KairosFlux.Service
