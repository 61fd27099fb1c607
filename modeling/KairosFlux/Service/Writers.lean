import KairosFlux.Lib.Runs
import KairosFlux.Service.Ledger

/-! Concurrent versioned puts through several stores over one key-value server
(`service/temporal_store.go`, `kairosflux.go`, `service/router_v2.go`).

Each `TemporalStore` has its own locks and its own cache. The embedded engine and the router each
create one over the same server. -/

namespace KairosFlux.Service

open Lib Temporal List Function

structure Writer where
  inst : Nat
  call : PutCall
  deriving DecidableEq

/-- How far a call of `PutVersioned` has come: before its read of the sequence number, before each
of its two writes, or done. -/
inductive Phase where
  | waiting
  | versionDue (seq : UInt64)
  | currentDue (seq : UInt64)
  | returned (seq : UInt64)
  deriving DecidableEq

def Phase.assigned : Phase → Option UInt64
  | .waiting => none
  | .versionDue seq => some seq
  | .currentDue seq => some seq
  | .returned seq => some seq

def Phase.inside : Phase → Bool
  | .waiting => false
  | .versionDue _ => true
  | .currentDue _ => true
  | .returned _ => false

structure Shared where
  kv : KVServer
  caches : Nat → Bytes → Option UInt64
  phases : Nat → Phase

def Shared.initial : Shared := ⟨KVServer.empty, fun _ _ => none, fun _ => .waiting⟩

def Shared.view (s : Shared) (inst : Nat) : TemporalStore := ⟨s.kv, s.caches inst⟩

def lockHeld (writers : List Writer) (s : Shared) (w : Writer) : Bool :=
  (List.range writers.length).any fun t =>
    (s.phases t).inside && (writers[t]?).any fun other =>
      other.inst = w.inst ∧ other.call.logical = w.call.logical

/-- One atomic action of writer `t`: taking its lock and reading the number, the version write, or
the pointer write. The cache is only read under the lock, so storing it belongs to the last. -/
def writerStep (writers : List Writer) (s : Shared) (t : Nat) : Shared :=
  match writers[t]? with
  | none => s
  | some w =>
    match s.phases t with
    | .waiting =>
      if lockHeld writers s w then s
      else
        let seq := (s.view w.inst).nextSeq w.call.logical
        { s with phases := update s.phases t (.versionDue seq) }
    | .versionDue seq =>
      { s with
        kv := s.kv.write (versionCommand (newVersion w.call seq))
        phases := update s.phases t (.currentDue seq) }
    | .currentDue seq =>
      let cached := (s.view w.inst).cacheSeq w.call.logical seq
      { kv := s.kv.write (currentCommand (newVersion w.call seq))
        caches := update s.caches w.inst cached.seqCache
        phases := update s.phases t (.returned seq) }
    | .returned _ => s

/-- A writer reads its number only while no call of another store is inside its own put of the
key, and only with a cached number, if any, that is the one the pointer holds. -/
def ReadsFresh (writers : List Writer) (s : Shared) (t : Nat) : Prop :=
  ∀ w, writers[t]? = some w → s.phases t = .waiting → lockHeld writers s w = false →
    (∀ u other, writers[u]? = some other → other.call.logical = w.call.logical →
        other.inst ≠ w.inst → (s.phases u).inside = false) ∧
      ∀ cached, s.caches w.inst w.call.logical = some cached →
        ∃ cur, (s.view w.inst).currentPointer w.call.logical = some cur ∧ cur.seq = cached

/-- The stored versions, each with the writer it came from, in the order of the version writes. -/
structure InOrder (writers : List Writer) (s : Shared) (order : List (Nat × Version))
    (pointed : List Version) : Prop where
  known : ∀ t, s.phases t ≠ .waiting → t < writers.length
  once : (order.map Prod.fst).Nodup
  entry : ∀ e ∈ order, ∃ w seq, writers[e.1]? = some w ∧ e.2 = newVersion w.call seq ∧
    (s.phases e.1 = .currentDue seq ∨ s.phases e.1 = .returned seq)
  recorded : ∀ t w seq, writers[t]? = some w →
    (s.phases t = .currentDue seq ∨ s.phases t = .returned seq) →
      (t, newVersion w.call seq) ∈ order
  holds : Holds s.kv (order.map Prod.snd) pointed
  numbered : Numbered (order.map Prod.snd)
  alone : ∀ t u w x, writers[t]? = some w → writers[u]? = some x →
    w.call.logical = x.call.logical → (s.phases t).inside = true → (s.phases u).inside = true →
      t = u
  settled : ∀ logical, (∀ t w seq, writers[t]? = some w → w.call.logical = logical →
      s.phases t ≠ .currentDue seq) →
    onKey logical (order.map Prod.snd) = onKey logical pointed
  torn : ∀ t w seq, writers[t]? = some w → s.phases t = .currentDue seq →
    onKey w.call.logical (order.map Prod.snd) =
      onKey w.call.logical pointed ++ [newVersion w.call seq]
  due : ∀ t w seq, writers[t]? = some w → s.phases t = .versionDue seq →
    ∀ last, (seqsOf w.call.logical (order.map Prod.snd)).getLast? = some last → seq = last + 1

theorem InOrder.initial (writers : List Writer) : InOrder writers Shared.initial [] [] where
  known _ started := absurd rfl started
  once := nodup_nil
  entry _ member := nomatch member
  recorded _ _ _ _ stored := by simp [Shared.initial] at stored
  holds := Holds.empty
  numbered _ := Consecutive.nil
  alone _ _ _ _ _ _ _ inside _ := absurd inside (by simp [Shared.initial, Phase.inside])
  settled _ _ := rfl
  torn _ _ _ _ phase := by simp [Shared.initial] at phase
  due _ _ _ _ phase := by simp [Shared.initial] at phase

variable {writers : List Writer} {s : Shared} {order : List (Nat × Version)}
  {pointed : List Version}

theorem not_inside_of_unlocked (w x : Writer) (u : Nat) (known : writers[u]? = some x)
    (free : lockHeld writers s w = false) (sameInst : x.inst = w.inst)
    (sameKey : x.call.logical = w.call.logical) : (s.phases u).inside = false := by
  rw [lockHeld, any_eq_false] at free
  have bound : u < writers.length := (List.getElem?_eq_some_iff.mp known).1
  have here := free u (mem_range.mpr bound)
  simpa [known, sameInst, sameKey] using here

/-- With a fresh cache the number read is the one after the last version pointed to. -/
theorem InOrder.nextSeq (inOrder : InOrder writers s order pointed) (w : Writer)
    (fresh : ∀ cached, s.caches w.inst w.call.logical = some cached →
      ∃ cur, (s.view w.inst).currentPointer w.call.logical = some cur ∧ cur.seq = cached)
    (v : Version) (last : (onKey w.call.logical pointed).getLast? = some v) :
    (s.view w.inst).nextSeq w.call.logical = v.seq + 1 := by
  have viewHolds : Holds (s.view w.inst).store (order.map Prod.snd) pointed := inOrder.holds
  have pointer := TemporalStore.currentPointer_of_pointed viewHolds w.call.logical v last
  rw [TemporalStore.nextSeq]
  cases cached : (s.view w.inst).seqCache w.call.logical with
  | none =>
    rw [pointer]
    rfl
  | some seq =>
    obtain ⟨cur, current, same⟩ := fresh seq cached
    rw [pointer, Option.some.injEq] at current
    rw [← same, ← current]
    rfl

/-- Writer `t` goes to `phase` and no other writer moves. -/
structure Moves (s next : Shared) (t : Nat) (phase : Phase) : Prop where
  here : next.phases t = phase
  elsewhere : ∀ u, u ≠ t → next.phases u = s.phases u

theorem Moves.back {next : Shared} {t : Nat} {phase : Phase} (moves : Moves s next t phase)
    (u : Nat) (other : Phase) (reached : next.phases u = other) (different : other ≠ phase) :
    u ≠ t ∧ s.phases u = other := by
  have elsewhere : u ≠ t := by
    intro same
    rw [same, moves.here] at reached
    exact different reached.symm
  rw [moves.elsewhere u elsewhere] at reached
  exact ⟨elsewhere, reached⟩

theorem Moves.known {next : Shared} {t : Nat} {phase : Phase} (moves : Moves s next t phase)
    (w : Writer) (writer : writers[t]? = some w) (known : ∀ u, s.phases u ≠ .waiting → u < writers.length) :
    ∀ u, next.phases u ≠ .waiting → u < writers.length := by
  intro u started
  by_cases same : u = t
  · rw [same]
    exact (List.getElem?_eq_some_iff.mp writer).1
  · rw [moves.elsewhere u same] at started
    exact known u started

section

variable (inOrder : InOrder writers s order pointed)
include inOrder

theorem InOrder.start (next : Shared) (t : Nat)
    (w : Writer) (writer : writers[t]? = some w) (waiting : s.phases t = .waiting)
    (free : lockHeld writers s w = false) (fresh : ReadsFresh writers s t)
    (moves : Moves s next t (.versionDue ((s.view w.inst).nextSeq w.call.logical)))
    (sameKv : next.kv = s.kv) : InOrder writers next order pointed := by
  obtain ⟨others, cacheFresh⟩ := fresh w writer waiting free
  have outside : ∀ u x, writers[u]? = some x → x.call.logical = w.call.logical →
      (s.phases u).inside = false := by
    intro u x isWriter sameKey
    by_cases sameInst : x.inst = w.inst
    · exact not_inside_of_unlocked w x u isWriter free sameInst sameKey
    · exact others u x isWriter sameKey sameInst
  have unchanged : ∀ u, s.phases u ≠ .waiting → next.phases u = s.phases u := by
    intro u started
    apply moves.elsewhere
    intro same
    exact started (same ▸ waiting)
  constructor
  case known => exact moves.known w writer inOrder.known
  case once => exact inOrder.once
  case entry =>
    intro e member
    obtain ⟨x, seq, isWriter, shape, phase⟩ := inOrder.entry e member
    refine ⟨x, seq, isWriter, shape, ?_⟩
    rwa [unchanged e.1 (by rcases phase with phase | phase <;> simp [phase])]
  case recorded =>
    intro u x seq isWriter phase
    apply inOrder.recorded u x seq isWriter
    rcases phase with phase | phase
    · exact .inl (moves.back u _ phase (by simp)).2
    · exact .inr (moves.back u _ phase (by simp)).2
  case holds => exact sameKv ▸ inOrder.holds
  case numbered => exact inOrder.numbered
  case alone =>
    intro u v x y isWriter isOther sameKey inside otherInside
    by_cases first : u = t
    · by_cases second : v = t
      · rw [first, second]
      · subst first
        rw [writer, Option.some.injEq] at isWriter
        rw [moves.elsewhere v second, outside v y isOther (isWriter ▸ sameKey.symm)] at otherInside
        exact absurd otherInside (by simp)
    · rw [moves.elsewhere u first] at inside
      by_cases second : v = t
      · subst second
        rw [writer, Option.some.injEq] at isOther
        rw [outside u x isWriter (isOther ▸ sameKey)] at inside
        exact absurd inside (by simp)
      · rw [moves.elsewhere v second] at otherInside
        exact inOrder.alone u v x y isWriter isOther sameKey inside otherInside
  case settled =>
    intro logical none
    apply inOrder.settled
    intro u x seq isWriter sameKey phase
    apply none u x seq isWriter sameKey
    rw [unchanged u (by simp [phase]), phase]
  case torn =>
    intro u x seq isWriter phase
    exact inOrder.torn u x seq isWriter (moves.back u _ phase (by simp)).2
  case due =>
    intro u x seq isWriter phase last isLast
    by_cases same : u = t
    · subst same
      rw [writer, Option.some.injEq] at isWriter
      subst isWriter
      rw [moves.here, Phase.versionDue.injEq] at phase
      have pointedAll := inOrder.settled w.call.logical fun u x seq isWriter sameKey phase => by
        have notInside := outside u x isWriter sameKey
        rw [phase] at notInside
        exact absurd notInside (by simp [Phase.inside])
      rw [seqsOf, pointedAll, List.getLast?_map, Option.map_eq_some_iff] at isLast
      obtain ⟨v, lastPointed, rfl⟩ := isLast
      rw [← phase, inOrder.nextSeq w cacheFresh v lastPointed]
    · rw [moves.elsewhere u same] at phase
      exact inOrder.due u x seq isWriter phase last isLast

theorem Moves.alone {next : Shared} {t : Nat} {phase : Phase}
    (moves : Moves s next t phase) (narrower : phase.inside = true → (s.phases t).inside = true) :
    ∀ u v x y, writers[u]? = some x → writers[v]? = some y → x.call.logical = y.call.logical →
      (next.phases u).inside = true → (next.phases v).inside = true → u = v := by
  have before : ∀ u, (next.phases u).inside = true → (s.phases u).inside = true := by
    intro u inside
    by_cases same : u = t
    · subst same
      rw [moves.here] at inside
      exact narrower inside
    · rwa [moves.elsewhere u same] at inside
  intro u v x y isWriter isOther sameKey inside otherInside
  exact inOrder.alone u v x y isWriter isOther sameKey (before u inside) (before v otherInside)

theorem InOrder.otherKey (t u : Nat) (w x : Writer)
    (writer : writers[t]? = some w) (other : writers[u]? = some x) (different : u ≠ t)
    (inside : (s.phases t).inside = true) (otherInside : (s.phases u).inside = true) :
    w.call.logical ≠ x.call.logical := by
  intro sameKey
  exact different (inOrder.alone u t x w other writer sameKey.symm otherInside inside)

theorem InOrder.storeVersion (next : Shared) (t : Nat)
    (w : Writer) (seq : UInt64) (writer : writers[t]? = some w)
    (phase : s.phases t = .versionDue seq) (moves : Moves s next t (.currentDue seq))
    (written : next.kv = s.kv.write (versionCommand (newVersion w.call seq))) :
    InOrder writers next (order ++ [(t, newVersion w.call seq)]) pointed := by
  have stored : (order ++ [(t, newVersion w.call seq)]).map Prod.snd =
      order.map Prod.snd ++ [newVersion w.call seq] := map_append
  have inside : (s.phases t).inside = true := by rw [phase, Phase.inside]
  -- Every other writer inside a put works on another key, so the new version is not on its key.
  have otherKey : ∀ u x, writers[u]? = some x → u ≠ t → (s.phases u).inside = true →
      (newVersion w.call seq).logicalKey ≠ x.call.logical :=
    fun u x other different => inOrder.otherKey t u w x writer other different inside
  have unstored : ∀ e ∈ order, e.1 ≠ t := by
    intro e member same
    obtain ⟨x, number, _, _, storedPhase⟩ := inOrder.entry e member
    rw [same, phase] at storedPhase
    exact absurd storedPhase (by simp)
  constructor
  case known => exact moves.known w writer inOrder.known
  case once =>
    rw [map_append, nodup_append]
    refine ⟨inOrder.once, by simp, ?_⟩
    intro u member v isNew
    obtain ⟨e, inside, rfl⟩ := mem_map.mp member
    rw [mem_singleton.mp isNew]
    exact unstored e inside
  case entry =>
    intro e member
    rcases mem_append.mp member with member | member
    · obtain ⟨x, number, isWriter, shape, storedPhase⟩ := inOrder.entry e member
      exact ⟨x, number, isWriter, shape, by rwa [moves.elsewhere e.1 (unstored e member)]⟩
    · rw [mem_singleton.mp member]
      exact ⟨w, seq, writer, rfl, .inl moves.here⟩
  case recorded =>
    intro u x number isWriter storedPhase
    by_cases same : u = t
    · subst same
      rw [writer, Option.some.injEq] at isWriter
      subst isWriter
      have number : number = seq := by simpa [moves.here, eq_comm] using storedPhase
      rw [number]
      simp
    · rw [moves.elsewhere u same] at storedPhase
      exact mem_append_left _ (inOrder.recorded u x number isWriter storedPhase)
  case holds =>
    rw [stored, written]
    exact inOrder.holds.writeVersion _
  case numbered =>
    intro logical
    rw [stored]
    by_cases same : (newVersion w.call seq).logicalKey = logical
    · rw [← same, seqsOf_snoc_same]
      exact (inOrder.numbered _).snoc _ _ (inOrder.due t w seq writer phase)
    · rw [seqsOf, onKey_snoc_other _ _ _ same]
      exact inOrder.numbered logical
  case alone => exact moves.alone inOrder fun _ => inside
  case settled =>
    intro logical none
    have different : (newVersion w.call seq).logicalKey ≠ logical := by
      intro same
      exact none t w seq writer same moves.here
    rw [stored, onKey_snoc_other _ _ _ different]
    apply inOrder.settled
    intro u x number isWriter sameKey currentPhase
    apply none u x number isWriter sameKey
    rw [moves.elsewhere u (by intro same; rw [same, phase] at currentPhase; simp at currentPhase),
      currentPhase]
  case torn =>
    intro u x number isWriter currentPhase
    by_cases same : u = t
    · subst same
      rw [writer, Option.some.injEq] at isWriter
      subst isWriter
      rw [moves.here, Phase.currentDue.injEq] at currentPhase
      subst currentPhase
      rw [stored, show w.call.logical = (newVersion w.call seq).logicalKey from rfl, onKey_snoc_same]
      congr 1
      apply inOrder.settled
      intro v y other isOther sameKey otherPhase
      have same : v = u := inOrder.alone v u y w isOther writer sameKey
        (by rw [otherPhase, Phase.inside]) inside
      rw [same, phase] at otherPhase
      exact absurd otherPhase (by simp)
    · rw [moves.elsewhere u same] at currentPhase
      rw [stored, onKey_snoc_other _ _ _
        (otherKey u x isWriter same (by rw [currentPhase, Phase.inside]))]
      exact inOrder.torn u x number isWriter currentPhase
  case due =>
    intro u x number isWriter duePhase
    obtain ⟨different, before⟩ := moves.back u _ duePhase (by simp)
    rw [stored, seqsOf, onKey_snoc_other _ _ _
      (otherKey u x isWriter different (by rw [before, Phase.inside]))]
    exact inOrder.due u x number isWriter before

theorem InOrder.point (next : Shared) (t : Nat)
    (w : Writer) (seq : UInt64) (writer : writers[t]? = some w)
    (phase : s.phases t = .currentDue seq) (moves : Moves s next t (.returned seq))
    (written : next.kv = s.kv.write (currentCommand (newVersion w.call seq))) :
    InOrder writers next order (pointed ++ [newVersion w.call seq]) := by
  have inside : (s.phases t).inside = true := by rw [phase, Phase.inside]
  have stillStored : ∀ u number, s.phases u = .currentDue number ∨ s.phases u = .returned number →
      next.phases u = .currentDue number ∨ next.phases u = .returned number := by
    intro u number storedPhase
    by_cases same : u = t
    · subst same
      rw [phase] at storedPhase
      right
      rw [moves.here]
      simpa using storedPhase
    · rwa [moves.elsewhere u same]
  constructor
  case known => exact moves.known w writer inOrder.known
  case once => exact inOrder.once
  case entry =>
    intro e member
    obtain ⟨x, number, isWriter, shape, storedPhase⟩ := inOrder.entry e member
    exact ⟨x, number, isWriter, shape, stillStored e.1 number storedPhase⟩
  case recorded =>
    intro u x number isWriter storedPhase
    apply inOrder.recorded u x number isWriter
    by_cases same : u = t
    · subst same
      left
      rw [phase]
      simpa [moves.here] using storedPhase
    · rwa [moves.elsewhere u same] at storedPhase
  case holds =>
    rw [written]
    exact inOrder.holds.writeCurrent _
  case numbered => exact inOrder.numbered
  case alone => exact moves.alone inOrder fun _ => inside
  case settled =>
    intro logical none
    by_cases same : (newVersion w.call seq).logicalKey = logical
    · rw [← same, onKey_snoc_same]
      exact inOrder.torn t w seq writer phase
    · rw [onKey_snoc_other _ _ _ same]
      apply inOrder.settled
      intro u x number isWriter sameKey currentPhase
      have different : u ≠ t := by
        intro isSame
        rw [isSame, writer, Option.some.injEq] at isWriter
        exact same (isWriter ▸ sameKey)
      apply none u x number isWriter sameKey
      rw [moves.elsewhere u different, currentPhase]
  case torn =>
    intro u x number isWriter currentPhase
    obtain ⟨different, before⟩ := moves.back u _ currentPhase (by simp)
    have otherKey : (newVersion w.call seq).logicalKey ≠ x.call.logical :=
      inOrder.otherKey t u w x writer isWriter different inside (by rw [before, Phase.inside])
    rw [onKey_snoc_other _ _ _ otherKey]
    exact inOrder.torn u x number isWriter before
  case due =>
    intro u x number isWriter duePhase
    exact inOrder.due u x number isWriter (moves.back u _ duePhase (by simp)).2

end

theorem moves_update (s : Shared) (t : Nat) (phase : Phase) (kv : KVServer)
    (caches : Nat → Bytes → Option UInt64) :
    Moves s ⟨kv, caches, update s.phases t phase⟩ t phase where
  here := update_self t phase s.phases
  elsewhere _ different := update_of_ne different phase s.phases

theorem InOrder.step (inOrder : InOrder writers s order pointed) (t : Nat)
    (fresh : ReadsFresh writers s t) :
    ∃ order pointed, InOrder writers (writerStep writers s t) order pointed := by
  rw [writerStep]
  cases writer : writers[t]? with
  | none => exact ⟨order, pointed, inOrder⟩
  | some w =>
    simp only
    cases phase : s.phases t with
    | waiting =>
      cases held : lockHeld writers s w with
      | true => exact ⟨order, pointed, inOrder⟩
      | false =>
        exact ⟨order, pointed, inOrder.start _ t w writer phase held fresh
          (moves_update s t _ _ _) rfl⟩
    | versionDue seq =>
      exact ⟨_, pointed, inOrder.storeVersion _ t w seq writer phase
        (moves_update s t _ _ _) rfl⟩
    | currentDue seq =>
      exact ⟨order, _, inOrder.point _ t w seq writer phase (moves_update s t _ _ _) rfl⟩
    | returned seq => exact ⟨order, pointed, inOrder⟩

end KairosFlux.Service
