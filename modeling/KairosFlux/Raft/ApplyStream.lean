import KairosFlux.Raft.Restart
import KairosFlux.Raft.Safety

/-! What a node puts on its apply channel (`applyCommittedLogs`, `TakeSnapshot` and
`InstallSnapshot`): entries one after the other and snapshots that do not go back. -/

namespace KairosFlux.Raft

open Lib List Option Node

variable {n : Nat}

/-- Behind an item with the index `last`, each entry has the next index and each snapshot no smaller
one. -/
def InOrder : Int → List LogEntry → Prop
  | _, [] => True
  | last, item :: rest =>
    (if item.isSnapshot then last ≤ item.index else item.index = last + 1) ∧ InOrder item.index rest

instance InOrder.decidable : ∀ last items, Decidable (InOrder last items)
  | _, [] => inferInstanceAs (Decidable True)
  | last, item :: rest =>
    have := InOrder.decidable item.index rest
    inferInstanceAs (Decidable ((if item.isSnapshot = true then last ≤ item.index
      else item.index = last + 1) ∧ _))

def lastIndex (items : List LogEntry) : Int := items.getLast?.elim (-1) LogEntry.index

theorem inOrder_snoc (items : List LogEntry) (item : LogEntry) (last : Int) :
    InOrder last (items ++ [item]) ↔ InOrder last items ∧
      if item.isSnapshot then items.getLast?.elim last LogEntry.index ≤ item.index
      else item.index = items.getLast?.elim last LogEntry.index + 1 := by
  induction items generalizing last with
  | nil => simp [InOrder]
  | cons first rest ih =>
    rw [cons_append, InOrder, InOrder, ih, and_assoc, List.getLast?_cons]
    cases rest.getLast? <;> rfl

@[simp] theorem lastIndex_snoc (items : List LogEntry) (item : LogEntry) :
    lastIndex (items ++ [item]) = item.index := by
  rw [lastIndex, List.getLast?_concat]
  rfl

/-- What was put on the channel is in order and ends where the node has applied. -/
structure Streamed (items : List LogEntry) (applied : Int) : Prop where
  order : InOrder (-1) items
  last : lastIndex items = applied

namespace Streamed

variable {items : List LogEntry} {applied : Int}

theorem entry (streamed : Streamed items applied) (item : LogEntry)
    (plain : item.isSnapshot = false) (next : item.index = applied + 1) :
    Streamed (items ++ [item]) (applied + 1) where
  order := by
    rw [inOrder_snoc, plain]
    refine ⟨streamed.order, ?_⟩
    rw [next, ← streamed.last]
    rfl
  last := (lastIndex_snoc items item).trans next

theorem snapshot (streamed : Streamed items applied) (item : LogEntry)
    (marked : item.isSnapshot = true) (ahead : applied ≤ item.index) :
    Streamed (items ++ [item]) item.index where
  order := by
    rw [inOrder_snoc, marked]
    refine ⟨streamed.order, ?_⟩
    rw [← streamed.last] at ahead
    exact ahead
  last := lastIndex_snoc items item

end Streamed

namespace Node

/-- The log is numbered behind its snapshot and holds no snapshot. -/
structure Logged (r : Node n) : Prop where
  base : 0 ≤ r.lastIncludedIndex
  snapshot : r.lastSnapshotIndex = r.lastIncludedIndex
  numbered : Numbered r.firstIndex r.log
  plain : ∀ entry ∈ r.log, entry.isSnapshot = false

/-- The log reaches over the commit index, and all that is committed was put on the channel in its
order. -/
structure InStep (r : Node n) : Prop extends r.Logged where
  covered : r.firstIndex ≤ r.commitIndex + 1
  reaches : r.commitIndex < r.firstIndex + r.log.length
  applied : r.lastApplied = r.commitIndex
  streamed : Streamed r.applyCh r.commitIndex

theorem entryAt_relIndex (r : Node n) (numbered : Numbered r.firstIndex r.log) {index : Int}
    (behind : r.firstIndex ≤ index) (inside : index < r.firstIndex + r.log.length) :
    ∃ entry ∈ r.log, r.entryAt (r.relIndex index) = some entry ∧ entry.index = index := by
  have bound : (index - r.firstIndex).toNat < r.log.length := by omega
  have found := List.getElem?_eq_getElem bound
  refine ⟨_, mem_of_getElem? found, ?_, ?_⟩
  · rw [r.relIndex_eq_sub, entryAt, if_neg (by omega)]
    exact found
  · rw [numbered.getElem? found]
    omega

theorem streamed_applyLoop (count : Nat) (r : Node n) (numbered : Numbered r.firstIndex r.log)
    (plain : ∀ entry ∈ r.log, entry.isSnapshot = false) (covered : r.firstIndex ≤ r.lastApplied + 1)
    (reaches : r.lastApplied + count < r.firstIndex + r.log.length)
    (streamed : Streamed r.applyCh r.lastApplied) :
    ∃ entries, applyLoop count r =
        { r with lastApplied := r.lastApplied + count, applyCh := r.applyCh ++ entries } ∧
      Streamed (r.applyCh ++ entries) (r.lastApplied + count) := by
  induction count generalizing r with
  | zero =>
    refine ⟨[], by simp [applyLoop], ?_⟩
    simpa using streamed
  | succ count ih =>
    have inside : r.lastApplied + 1 < r.firstIndex + r.log.length := by
      omega
    rcases r.entryAt_relIndex numbered covered inside with ⟨entry, member, found, place⟩
    let next : Node n := { r with
      lastApplied := r.lastApplied + 1
      applyCh := r.applyCh ++ [entry] }
    have later : next.firstIndex ≤ next.lastApplied + 1 := by
      change r.firstIndex ≤ r.lastApplied + 1 + 1
      omega
    have room : next.lastApplied + count < next.firstIndex + next.log.length := by
      change r.lastApplied + 1 + count < r.firstIndex + r.log.length
      omega
    rcases ih next numbered plain later room (streamed.entry entry (plain entry member) place) with
      ⟨entries, same, more⟩
    have sum : r.lastApplied + 1 + (count : Int) = r.lastApplied + (count + 1 : Nat) := by
      push_cast
      ring
    refine ⟨entry :: entries, ?_, ?_⟩
    · have step : applyLoop (count + 1) r = applyLoop count next := by
        rw [applyLoop]
        split
        case h_1 other same => rw [← some.inj (found.symm.trans same)]
        case h_2 none => cases found.symm.trans none
      rw [step, same, ← sum, append_cons]
    · rw [← sum, append_cons]
      exact more

variable {r : Node n} {log entries added : List LogEntry} {rebuild : Bool}

theorem InStep.commit (logged : r.Logged) (covered : r.firstIndex ≤ r.lastApplied + 1)
    (forward : r.lastApplied ≤ r.commitIndex) (reaches : r.commitIndex < r.firstIndex + r.log.length)
    (streamed : Streamed r.applyCh r.lastApplied) : r.applyCommittedLogs.InStep := by
  have total : r.lastApplied + ((r.commitIndex - r.lastApplied).toNat : Int) = r.commitIndex := by
    omega
  rcases streamed_applyLoop (r.commitIndex - r.lastApplied).toNat r logged.numbered logged.plain covered
    (by rw [total]; exact reaches) streamed with ⟨entries, same, more⟩
  rw [total] at same more
  rw [applyCommittedLogs, same]
  constructor
  case toLogged => exact ⟨logged.base, logged.snapshot, logged.numbered, logged.plain⟩
  case covered => exact covered.trans (by change r.lastApplied + 1 ≤ r.commitIndex + 1; omega)
  case reaches => exact reaches
  case applied => rfl
  case streamed => exact more

theorem InStep.commitTo (inStep : r.InStep) (index : Int)
    (forward : r.commitIndex ≤ index) (reaches : index < r.firstIndex + r.log.length) :
    { r with commitIndex := index }.applyCommittedLogs.InStep ∧
      r.commitIndex ≤ { r with commitIndex := index }.applyCommittedLogs.commitIndex := by
  constructor
  · apply InStep.commit
    case logged => exact ⟨inStep.base, inStep.snapshot, inStep.numbered, inStep.plain⟩
    case covered =>
      rw [inStep.applied]
      exact inStep.covered
    case forward =>
      rw [inStep.applied]
      exact forward
    case reaches => exact reaches
    case streamed =>
      rw [inStep.applied]
      exact inStep.streamed
  · rw [applyCommittedLogs_commitIndex]
    exact forward

structure SameStream (r after : Node n) : Prop where
  base : after.lastIncludedIndex = r.lastIncludedIndex
  snapshot : after.lastSnapshotIndex = r.lastSnapshotIndex
  log : after.log = r.log
  commit : after.commitIndex = r.commitIndex
  applied : after.lastApplied = r.lastApplied
  channel : after.applyCh = r.applyCh

theorem InStep.stay {after : Node n} (inStep : r.InStep) (same : SameStream r after) :
    after.InStep := by
  have first : after.firstIndex = r.firstIndex := by rw [firstIndex, firstIndex, same.base]
  constructor
  case toLogged =>
    refine ⟨?_, ?_, ?_, ?_⟩
    · rw [same.base]
      exact inStep.base
    · rw [same.snapshot, same.base]
      exact inStep.snapshot
    · rw [first, same.log]
      exact inStep.numbered
    · rw [same.log]
      exact inStep.plain
  case covered =>
    rw [first, same.commit]
    exact inStep.covered
  case reaches =>
    rw [first, same.commit, same.log]
    exact inStep.reaches
  case applied =>
    rw [same.applied, same.commit]
    exact inStep.applied
  case streamed =>
    rw [same.channel, same.commit]
    exact inStep.streamed

theorem mem_mergeEntries {relIndex : Int → Int}
    {entry : LogEntry} (member : entry ∈ (mergeEntries relIndex entries (log, rebuild, added)).1) :
    entry ∈ log ∨ entry ∈ entries := by
  induction entries generalizing log rebuild added with
  | nil => exact .inl member
  | cons first rest ih =>
    -- whatever the round does, it keeps a part of the log or puts `first` behind it
    have round : ∀ {kept : List LogEntry}, (∀ old ∈ kept, old ∈ log ∨ old = first) →
        entry ∈ kept ∨ entry ∈ rest → entry ∈ log ∨ entry ∈ first :: rest := by
      intro kept source found
      rcases found with old | new
      · rcases source entry old with before | rfl
        · exact .inl before
        · exact .inr (.head _)
      · exact .inr (.tail _ new)
    rw [mergeEntries] at member
    simp only at member
    split_ifs at member
    all_goals
      refine round ?_ (ih member)
      intro old inside
    · exact .inl inside
    · rcases mem_append.mp inside with before | new
      · exact .inl (mem_of_mem_take before)
      · exact .inr (mem_singleton.mp new)
    · exact .inl (mem_of_mem_take inside)
    · rcases mem_append.mp inside with before | new
      · exact .inl before
      · exact .inr (mem_singleton.mp new)
    · exact .inl inside

theorem le_length_mergeEntries {relIndex : Int → Int} {count : Nat} (long : count ≤ log.length)
    (agrees : ∀ entry ∈ entries, ∀ k : Nat, k < count → relIndex entry.index = k →
      ∀ old ∈ log[k]?, old.term = entry.term) :
    count ≤ (mergeEntries relIndex entries (log, rebuild, added)).1.length := by
  induction entries generalizing log rebuild added with
  | nil => exact long
  | cons first rest ih =>
    have here := agrees first (.head _)
    have later : ∀ {kept : List LogEntry}, (∀ k < count, kept[k]? = log[k]?) →
        ∀ entry ∈ rest, ∀ k : Nat, k < count → relIndex entry.index = k →
          ∀ old ∈ kept[k]?, old.term = entry.term := by
      intro kept same entry member k inside place old found
      rw [same k inside] at found
      exact agrees entry (.tail _ member) k inside place old found
    -- the entries from a disagreement on go, and it lies behind the kept ones
    have behind : ¬ relIndex first.index < 0 →
        (log[(relIndex first.index).toNat]?.any fun old => decide (old.term ≠ first.term)) = true →
          count ≤ (relIndex first.index).toNat := by
      intro before conflict
      by_contra inside
      cases found : log[(relIndex first.index).toNat]? with
      | none =>
        rw [found] at conflict
        cases conflict
      | some old =>
        rw [found] at conflict
        exact absurd (here _ (by omega) (by omega) old found) (of_decide_eq_true conflict)
    rw [mergeEntries]
    simp only
    split_ifs with before conflict
    · exact ih long (later fun _ _ => rfl)
    · have behind := behind before conflict
      apply ih
      · rw [length_append, length_take]
        omega
      · apply later
        intro k inside
        rw [List.getElem?_append_left (by rw [length_take]; omega),
          List.getElem?_take_of_lt (by omega)]
    · have behind := behind before conflict
      apply ih
      · omega
      · apply later
        intro k inside
        rw [List.getElem?_take_of_lt (by omega)]
    · apply ih
      · rw [length_append]
        omega
      · apply later
        intro k inside
        rw [List.getElem?_append_left (by omega)]
    · exact ih long (later fun _ _ => rfl)

theorem mergeEntries_ne_nil {relIndex : Int → Int} (some : log ≠ []) :
    (mergeEntries relIndex entries (log, rebuild, added)).1 ≠ [] := by
  induction entries generalizing log rebuild added with
  | nil => exact some
  | cons first rest ih =>
    rw [mergeEntries]
    simp only
    split_ifs with before conflict short
    · exact ih some
    · exact ih (append_ne_nil_of_right_ne_nil _ (cons_ne_nil _ _))
    · apply ih
      intro empty
      rw [empty] at short
      exact short (Nat.zero_le _)
    · exact ih (append_ne_nil_of_right_ne_nil _ (cons_ne_nil _ _))
    · exact ih some

theorem mergeEntries_nil_ne_nil {relIndex : Int → Int} {first : LogEntry} {rest : List LogEntry}
    (start : relIndex first.index = 0) :
    (mergeEntries relIndex (first :: rest) ([], false, [])).1 ≠ [] := by
  rw [mergeEntries]
  simp only [start, lt_irrefl, if_false, Int.toNat_zero, List.getElem?_nil, any_none,
    Bool.false_eq_true, length_nil, le_refl, if_true, nil_append]
  exact mergeEntries_ne_nil (cons_ne_nil _ _)

/-- The last index that `AppendEntries` takes is that of the log, except without any entry and
snapshot. -/
theorem Logged.lastLogIndex (logged : r.Logged) (some : r.log = [] → 0 < r.lastIncludedIndex) :
    r.log.getLast?.elim r.lastIncludedIndex LogEntry.index = r.firstIndex + r.log.length - 1 := by
  rcases r.log.eq_nil_or_concat' with empty | ⟨front, last, split⟩
  · rw [empty, firstIndex, if_pos (some empty)]
    simp
  · have found : r.log[front.length]? = .some last := by simp [split]
    have place := logged.numbered.getElem? found
    rw [split, List.getLast?_concat, length_append, length_singleton]
    simp only [elim_some, place]
    push_cast
    ring

theorem InStep.advanceCommit (inStep : r.InStep) (leaderCommit : Int)
    (some : r.log = [] → r.lastIncludedIndex = 0 → leaderCommit ≤ r.commitIndex) :
    (r.advanceCommit leaderCommit).InStep ∧ r.commitIndex ≤ (r.advanceCommit leaderCommit).commitIndex := by
  rw [Node.advanceCommit]
  split_ifs with ahead
  · have last : r.log.getLast?.elim r.lastIncludedIndex LogEntry.index =
        r.firstIndex + r.log.length - 1 := by
      apply inStep.toLogged.lastLogIndex
      intro empty
      by_contra none
      have base := inStep.base
      exact absurd (some empty (by omega)) (not_le.mpr ahead)
    have reaches := inStep.reaches
    exact inStep.commitTo _ (le_min ahead.le (by omega)) ((min_le_right _ _).trans_lt (by omega))
  · exact ⟨inStep, le_rfl⟩

theorem numbered_of_getElem? {start : Int}
    (places : ∀ (k : Nat) (entry : LogEntry), log[k]? = some entry → entry.index = start + k) :
    Numbered start log := by
  induction log generalizing start with
  | nil => trivial
  | cons first rest ih =>
    constructor
    · simpa using places 0 first rfl
    · apply ih
      intro k entry found
      rw [places (k + 1) entry found]
      push_cast
      ring

theorem compactLog_cases (r : Node n) (index : Int) :
    r.compactLog index = [] ∨ 0 ≤ index + 1 - r.lastIncludedIndex ∧ r.compactLog index =
        renumber (index + 1) (r.log.drop (index + 1 - r.lastIncludedIndex).toNat) := by
  rw [compactLog]
  split_ifs with inside
  · exact .inr ⟨inside.1, rfl⟩
  · exact .inl rfl

theorem numbered_compactLog (r : Node n) (index : Int) :
    Numbered (index + 1) (r.compactLog index) := by
  rcases r.compactLog_cases index with empty | ⟨_, cut⟩
  · rw [empty]
    trivial
  · rw [cut]
    apply numbered_of_getElem?
    intro k entry found
    rw [renumber, List.getElem?_map, List.getElem?_zipIdx] at found
    rcases map_eq_some_iff.mp found with ⟨old, inner, rfl⟩
    rcases map_eq_some_iff.mp inner with ⟨_, _, rfl⟩
    simp

theorem plain_compactLog (r : Node n) (index : Int)
    (plain : ∀ entry ∈ r.log, entry.isSnapshot = false) :
    ∀ entry ∈ r.compactLog index, entry.isSnapshot = false := by
  intro entry member
  rcases r.compactLog_cases index with empty | ⟨_, cut⟩
  · rw [empty] at member
    cases member
  · rw [cut, renumber] at member
    rcases mem_map.mp member with ⟨⟨old, k⟩, inside, rfl⟩
    exact plain old (mem_of_mem_drop (fst_mem_of_mem_zipIdx inside))

theorem Logged.cut {after : Node n} {index : Int} (logged : r.Logged) (cut : Cut r after index)
    (ahead : r.lastIncludedIndex < index) : after.Logged := by
  have base := logged.base
  constructor
  case base => rw [cut.base]; omega
  case snapshot => rw [cut.snapshot, cut.base]
  case numbered =>
    rw [firstIndex, cut.base, if_pos (by omega), cut.log]
    exact r.numbered_compactLog index
  case plain =>
    rw [cut.log]
    exact r.plain_compactLog index logged.plain

theorem InStep.takeSnapshot (inStep : r.InStep) (index : Int) (full : Bool)
    (steady : r.Snapshots index → index = r.commitIndex ∨ full = true ∧ r.Clean index) :
    (r.takeSnapshot index full).InStep ∧
      (r.takeSnapshot index full).commitIndex = r.commitIndex := by
  by_cases accepted : r.Snapshots index
  · have cut := r.cut_takeSnapshot accepted full
    have base := inStep.base
    have ahead : r.lastIncludedIndex < index := inStep.snapshot ▸ accepted.1
    have logged := inStep.toLogged.cut cut ahead
    have first : (r.takeSnapshot index full).firstIndex = index + 1 := by
      rw [firstIndex, cut.base, if_pos (by omega)]
    have upTo := accepted.2
    have reaches : r.commitIndex < index + 1 + (r.takeSnapshot index full).log.length := by
      rcases steady accepted with here | ⟨_, clean⟩
      · omega
      · have before := inStep.reaches
        rw [cut.log]
        rcases clean with start | short
        · rw [firstIndex, start, if_neg (lt_irrefl 0)] at before
          rw [compactLog, start]
          by_cases inside : index + 1 ≤ r.log.length
          · simp only [sub_zero]
            rw [if_pos ⟨by omega, inside⟩, renumber, length_map, length_zipIdx, length_drop]
            omega
          · omega
        · rw [firstIndex, if_pos (by omega)] at before
          omega
    rw [Snapshots] at accepted
    have same : (r.takeSnapshot index full).commitIndex = r.commitIndex ∧
        (r.takeSnapshot index full).lastApplied = r.lastApplied ∧
        ∃ item : LogEntry, item.isSnapshot = true ∧ item.index = index ∧
          (r.takeSnapshot index full).applyCh = r.notify full item := by
      rw [Node.takeSnapshot, if_neg (by omega)]
      exact ⟨rfl, rfl, _, rfl, rfl, rfl⟩
    rcases same with ⟨commit, applied, item, marked, place, channel⟩
    refine ⟨⟨logged, ?_, ?_, ?_, ?_⟩, commit⟩
    · omega
    · rw [first, commit]
      exact reaches
    · rw [applied, commit]
      exact inStep.applied
    · rw [channel, commit, notify]
      cases full with
      | true => exact inStep.streamed
      | false =>
        rcases steady accepted with here | ⟨none, _⟩
        · have item := inStep.streamed.snapshot item marked (by omega)
          rw [place, here] at item
          exact item
        · cases none
  · rw [r.takeSnapshot_refused accepted]
    exact ⟨inStep, rfl⟩

theorem InStep.installSnapshot (inStep : r.InStep) (args : InstallSnapshotArgs n)
    (full : Bool) (steady : r.Installs args → r.commitIndex ≤ args.lastIncludedIndex ∧
      (full = true → args.lastIncludedIndex = r.commitIndex)) :
    (r.installSnapshot args full).1.InStep ∧
      r.commitIndex ≤ (r.installSnapshot args full).1.commitIndex := by
  have adopts : SameStream r (r.adopt args.term) := by
    rw [adopt]
    split_ifs <;> exact ⟨rfl, rfl, rfl, rfl, rfl, rfl⟩
  by_cases accepted : r.Installs args
  · rcases steady accepted with ⟨ahead, skipped⟩
    have cut := r.cut_installSnapshot accepted full
    have base := inStep.base
    have logged := inStep.toLogged.cut cut accepted.2
    have first : (r.installSnapshot args full).1.firstIndex = args.lastIncludedIndex + 1 := by
      rw [Installs] at accepted
      rw [firstIndex, cut.base, if_pos (by omega)]
    have same : (r.installSnapshot args full).1.commitIndex = args.lastIncludedIndex ∧
        (r.installSnapshot args full).1.lastApplied = args.lastIncludedIndex ∧
        ∃ item : LogEntry, item.isSnapshot = true ∧ item.index = args.lastIncludedIndex ∧
          (r.installSnapshot args full).1.applyCh = r.notify full item := by
      rw [Installs] at accepted
      rw [Node.installSnapshot]
      rw [if_neg (by omega), if_neg (by rw [adopts.base]; omega)]
      refine ⟨rfl, rfl, ⟨args.lastIncludedIndex, args.lastIncludedTerm, args.data, true⟩, rfl, rfl, ?_⟩
      simp only [persistStateLocked, notify, adopts.channel]
    rcases same with ⟨commit, applied, item, marked, place, channel⟩
    refine ⟨⟨logged, ?_, ?_, ?_, ?_⟩, by rw [commit]; exact ahead⟩
    · rw [first, commit]
    · omega
    · rw [applied, commit]
    · rw [channel, commit, notify]
      cases full with
      | true =>
        rw [skipped rfl]
        exact inStep.streamed
      | false =>
        have item := inStep.streamed.snapshot item marked (by rw [place]; exact ahead)
        rw [place] at item
        exact item
  · have refused : SameStream r (r.installSnapshot args full).1 := by
      rw [Installs] at accepted
      rw [Node.installSnapshot]
      simp only
      split_ifs with stale covered
      · exact ⟨rfl, rfl, rfl, rfl, rfl, rfl⟩
      · exact adopts
      · rw [adopts.base] at covered
        omega
    exact ⟨inStep.stay refused, refused.commit.ge⟩

end Node

/-- A request carries a part of a log. -/
structure AppendEntriesArgs.FromLog (args : AppendEntriesArgs n) : Prop where
  numbered : Numbered (args.prevLogIndex + 1) args.entries
  start : args.entries ≠ [] → -1 ≤ args.prevLogIndex
  plain : ∀ entry ∈ args.entries, entry.isSnapshot = false

namespace Node

def Accepts (r : Node n) (args : AppendEntriesArgs n) : Prop :=
  r.term ≤ args.term ∧ r.prevMatches args = true
deriving Decidable

/-- No entry of the request disagrees with a committed one, and a node without entries and snapshot
is not told to commit without getting entries. -/
def Follows (r : Node n) (args : AppendEntriesArgs n) : Prop :=
  (∀ entry ∈ args.entries, entry.index ≤ r.commitIndex →
    ∀ old ∈ r.entryAt (r.relIndex entry.index), old.term = entry.term) ∧
  (r.log = [] → r.lastIncludedIndex = 0 → args.entries = [] → args.leaderCommit ≤ r.commitIndex)
deriving Decidable

theorem sameStream_follow (r : Node n) (leaderTerm : Nat) : SameStream r (r.follow leaderTerm) := by
  rw [follow]
  split_ifs <;> exact ⟨rfl, rfl, rfl, rfl, rfl, rfl⟩

variable {r : Node n}

theorem InStep.storeEntries (inStep : r.InStep) {args : AppendEntriesArgs n}
    (fromLog : args.FromLog) (accepted : r.prevMatches args = true) (follows : r.Follows args) :
    (r.storeEntries args.entries).InStep ∧ ((r.storeEntries args.entries).log = [] →
        (r.storeEntries args.entries).lastIncludedIndex = 0 → args.leaderCommit ≤ r.commitIndex) := by
  have contiguous : { r with wal := { r.wal with logs := r.log } }.Contiguous :=
    ⟨inStep.base, inStep.snapshot, inStep.numbered, rfl⟩
  have joins : args.prevLogIndex + 1 - r.firstIndex ≤ r.log.length := contiguous.joins accepted
  have merged : Merged r.firstIndex r.log [] false
      (mergeEntries r.relIndex args.entries (r.log, false, [])) :=
    merged_mergeEntries r.relIndex_eq_sub fromLog.numbered inStep.numbered joins
  have covered := inStep.covered
  have reaches := inStep.reaches
  have long : (r.commitIndex + 1 - r.firstIndex).toNat ≤
      (mergeEntries r.relIndex args.entries (r.log, false, [])).1.length := by
    apply le_length_mergeEntries
    · omega
    · intro entry member k inside place old found
      have committed : entry.index ≤ r.commitIndex := by
        rw [r.relIndex_eq_sub] at place
        omega
      apply follows.1 entry member committed old
      rw [place, entryAt, if_neg (by omega)]
      exact found
  rcases r.storeEntries_spec args.entries with ⟨wal, same⟩
  rw [same]
  refine ⟨⟨⟨inStep.base, inStep.snapshot, merged.numbered, ?_⟩, covered, ?_, inStep.applied,
    inStep.streamed⟩, ?_⟩
  · intro entry member
    rcases mem_mergeEntries member with old | new
    · exact inStep.plain entry old
    · exact fromLog.plain entry new
  · change r.commitIndex < r.firstIndex +
      (mergeEntries r.relIndex args.entries (r.log, false, [])).1.length
    omega
  · intro empty none
    have start : r.firstIndex = 0 := by rw [firstIndex, none, if_neg (lt_irrefl 0)]
    by_cases log : r.log = []
    · cases offered : args.entries with
      | nil => exact follows.2 log none offered
      | cons first rest =>
        have place : r.relIndex first.index = 0 := by
          have numbered := fromLog.numbered
          have lower := fromLog.start (by rw [offered]; exact cons_ne_nil _ _)
          rw [offered] at numbered
          rw [log, length_nil] at joins
          rw [r.relIndex_eq_sub, numbered.1]
          omega
        rw [offered, log] at empty
        exact absurd empty (mergeEntries_nil_ne_nil place)
    · exact absurd empty (mergeEntries_ne_nil log)

theorem InStep.appendEntries (inStep : r.InStep) {args : AppendEntriesArgs n}
    (fromLog : args.FromLog) (steady : r.Accepts args → r.Follows args) :
    (r.appendEntries args).1.InStep ∧ r.commitIndex ≤ (r.appendEntries args).1.commitIndex := by
  have same := r.sameStream_follow args.term
  have followed := inStep.stay same
  rw [Node.appendEntries]
  simp only
  split_ifs with stale accepted
  · exact ⟨inStep, le_rfl⟩
  · have follows : (r.follow args.term).Follows args := by
      have before := steady ⟨not_lt.mp stale, r.prevMatches_follow args.term args ▸ accepted⟩
      simp only [Follows, entryAt, relIndex, same.log, same.base, same.commit] at before ⊢
      exact before
    rcases followed.storeEntries fromLog accepted follows with ⟨stored, told⟩
    rcases (r.follow args.term).storeEntries_spec args.entries with ⟨wal, shape⟩
    have commit : ((r.follow args.term).storeEntries args.entries).commitIndex = r.commitIndex := by
      rw [shape]
      exact same.commit
    have advanced := stored.advanceCommit args.leaderCommit (by
      rw [commit, ← same.commit]
      exact told)
    rw [commit] at advanced
    exact advanced
  · exact ⟨followed, same.commit.ge⟩

theorem InStep.updateCommitIndex (inStep : r.InStep) (me : Fin n) :
    (r.updateCommitIndex me).InStep ∧ r.commitIndex ≤ (r.updateCommitIndex me).commitIndex := by
  rw [Node.updateCommitIndex]
  split_ifs
  · split
    case h_1 index found =>
      rcases findCommit_spec found with ⟨i, entry, there, place, ahead, _⟩
      apply inStep.commitTo index ahead.le
      have bound := (List.getElem?_eq_some_iff.mp there).1
      rw [← place, inStep.numbered.getElem? there]
      omega
    case h_2 => exact ⟨inStep, le_rfl⟩
  · exact ⟨inStep, le_rfl⟩

theorem InStep.handleAppendReply (inStep : r.InStep) (me peer : Fin n)
    (args : AppendEntriesArgs n) (reply : AppendEntriesReply) :
    (r.handleAppendReply me peer args reply).InStep ∧
      r.commitIndex ≤ (r.handleAppendReply me peer args reply).commitIndex := by
  rw [Node.handleAppendReply]
  split_ifs
  · exact ⟨inStep.stay ⟨rfl, rfl, rfl, rfl, rfl, rfl⟩, le_rfl⟩
  · have matched : SameStream r (r.advanceMatch peer (args.prevLogIndex + args.entries.length)) := by
      rw [advanceMatch]
      split_ifs <;> exact ⟨rfl, rfl, rfl, rfl, rfl, rfl⟩
    rw [← matched.commit]
    exact (inStep.stay matched).updateCommitIndex me
  · exact ⟨inStep.stay ⟨rfl, rfl, rfl, rfl, rfl, rfl⟩, le_rfl⟩
  · exact ⟨inStep, le_rfl⟩

theorem InStep.appendEntry (inStep : r.InStep) (command : Bytes) :
    (r.appendEntry command).1.InStep ∧ r.commitIndex ≤ (r.appendEntry command).1.commitIndex := by
  have contiguous : { r with wal := { r.wal with logs := r.log } }.Contiguous :=
    ⟨inStep.base, inStep.snapshot, inStep.numbered, rfl⟩
  have last : r.getLastLogIndex = r.firstIndex + r.log.length - 1 := contiguous.getLastLogIndex
  have reaches := inStep.reaches
  have added : (r.addEntry (r.newEntry command)).InStep := by
    refine ⟨⟨inStep.base, inStep.snapshot, ?_, ?_⟩, inStep.covered, ?_, inStep.applied,
      inStep.streamed⟩
    · apply inStep.numbered.append
      refine ⟨?_, trivial⟩
      rw [newEntry, last]
      simp
    · exact forall_mem_append.mpr ⟨inStep.plain, forall_mem_singleton.mpr rfl⟩
    · change r.commitIndex < r.firstIndex + ((r.log ++ [r.newEntry command]).length : Nat)
      rw [length_append, length_singleton]
      omega
  rw [Node.appendEntry]
  split_ifs
  · apply added.commitTo
    · change r.commitIndex ≤ r.getLastLogIndex + 1
      omega
    · change r.getLastLogIndex + 1 < r.firstIndex + ((r.log ++ [r.newEntry command]).length : Nat)
      rw [length_append, length_singleton]
      omega
  · exact ⟨added, le_rfl⟩
  · exact ⟨inStep, le_rfl⟩

end Node

namespace NodeCall

def FromLog : NodeCall n → Prop
  | log (.appendEntries args) => args.FromLog
  | _ => True

/-- A snapshot that is taken is at the commit index, unless the full channel drops it and the log is
cut right; one that is installed is not behind the commit index, and not dropped ahead of it. -/
def Steady (r : Node n) : NodeCall n → Prop
  | log (.appendEntries args) => r.Accepts args → r.Follows args
  | log (.takeSnapshot index full) =>
    r.Snapshots index → index = r.commitIndex ∨ full = true ∧ r.Clean index
  | log (.installSnapshot args full) => r.Installs args → r.commitIndex ≤ args.lastIncludedIndex ∧
      (full = true → args.lastIncludedIndex = r.commitIndex)
  | _ => True

theorem inStep_step {r : Node n} (inStep : r.InStep) {call : NodeCall n} (fromLog : call.FromLog)
    (steady : call.Steady r) :
    (call.step r).InStep ∧ r.commitIndex ≤ (call.step r).commitIndex := by
  have aside (aside : call.Aside) :
      (call.step r).InStep ∧ r.commitIndex ≤ (call.step r).commitIndex := by
    have same := sameRecord_step r aside
    exact ⟨inStep.stay ⟨same.base, same.snapshot, same.log, same.commit, same.applied, same.channel⟩,
      same.commit.ge⟩
  cases call with
  | log call =>
    cases call with
    | startElection | wonAsCandidate => exact aside trivial
    | appendEntry command => exact inStep.appendEntry command
    | appendReply me peer args reply => exact inStep.handleAppendReply me peer args reply
    | appendEntries args => exact inStep.appendEntries fromLog steady
    | takeSnapshot index full =>
      rcases inStep.takeSnapshot index full steady with ⟨next, commit⟩
      exact ⟨next, commit.ge⟩
    | installSnapshot args full => exact inStep.installSnapshot args full steady
  | requestVote | voteReply | abandonElection | appendError | snapshotReply => exact aside trivial

def Forward (r : Node n) (call : NodeCall n) : Prop :=
  r.commitIndex ≤ (call.step r).commitIndex ∧ r.lastApplied ≤ (call.step r).lastApplied
deriving Decidable

end NodeCall

theorem inStep_new : (new : Node n).InStep :=
  ⟨⟨le_rfl, rfl, trivial, nofun⟩, le_rfl,
    Int.negSucc_lt_zero 0, rfl, trivial, rfl⟩

/-- In every run of calls that are all steady, the items on the apply channel are in order and
neither the commit index nor the applied index goes back. -/
theorem apply_stream_in_order (calls : List (NodeCall n)) (fromLog : ∀ call ∈ calls, call.FromLog)
    (steady : Guarded NodeCall.step (fun r call => call.Steady r) new calls) :
    InOrder (-1) (run NodeCall.step new calls).applyCh ∧
      Guarded NodeCall.step (fun r call => call.Forward r) new calls := by
  have guarded := Guarded.and new calls steady (Guarded.of_forall new calls fromLog)
  have preserved : ∀ (r : Node n) (call : NodeCall n), r.InStep → call.Steady r ∧ call.FromLog →
      (NodeCall.step r call).InStep ∧ NodeCall.Forward r call := by
    rintro r call inStep ⟨steady, fromLog⟩
    rcases NodeCall.inStep_step inStep fromLog steady with ⟨next, commit⟩
    refine ⟨next, commit, ?_⟩
    rw [inStep.applied, next.applied]
    exact commit
  constructor
  · exact (Guarded.invariant (fun r call inStep both => (preserved r call inStep both).1)
      new calls inStep_new guarded).streamed.order
  · exact Guarded.observed preserved new calls inStep_new guarded

def fifthEntry : AppendEntriesArgs 2 where
  __ := fourEntries
  prevLogIndex := 3
  prevLogTerm := 1
  entries := [⟨4, 1, [101], false⟩]
  leaderCommit := 4

/-- A snapshot at the commit index stands between the entries 3 and 4. -/
theorem apply_stream_around_snapshot :
    let calls : List (NodeCall 2) := [.log (.appendEntries fourEntries), .log (.takeSnapshot 3 false),
      .log (.appendEntries fifthEntry)]
    (run NodeCall.step new calls).applyCh.map (fun item => (item.index, item.isSnapshot)) =
        [(0, false), (1, false), (2, false), (3, false), (3, true), (4, false)] ∧
      InOrder (-1) (run NodeCall.step new calls).applyCh := by
  intro calls
  refine ⟨by decide +kernel, (apply_stream_in_order calls ?_ ?_).1⟩
  · have four : fourEntries.FromLog := ⟨by simp [fourEntries, Numbered], by decide, by decide⟩
    have fifth : fifthEntry.FromLog := ⟨by simp [fifthEntry, Numbered], by decide, by decide⟩
    simp [calls, NodeCall.FromLog, four, fifth]
  · exact ⟨fun _ => by decide +kernel, fun _ => .inl (by decide +kernel), fun _ => by decide +kernel,
      trivial⟩

/-- A leader on its own with three committed entries takes a snapshot behind them; a node without
entries follows the commit index of a request without entries; and an older snapshot is installed
over committed entries. -/
theorem apply_stream_goes_back :
    let alone : List (NodeCall 1) := [.log (.startElection 0), .log (.wonAsCandidate 1),
      .log (.appendEntry [97]), .log (.appendEntry [98]), .log (.appendEntry [99]),
      .log (.takeSnapshot 1 false)]
    let told : List (NodeCall 2) := [.log (.appendEntries ⟨1, 1, -2, 0, [], 0⟩),
      .log (.appendEntries fourEntries)]
    let older : List (NodeCall 2) := [.log (.appendEntries fourEntries),
      .log (.installSnapshot ⟨1, 1, [], 1, 1⟩ false)]
    ((run NodeCall.step new alone).applyCh.map (fun item => (item.index, item.isSnapshot)) =
        [(0, false), (1, false), (2, false), (1, true)] ∧
      ¬ InOrder (-1) (run NodeCall.step new alone).applyCh) ∧
    ((run NodeCall.step new told).applyCh.map (fun item => (item.index, item.isSnapshot)) =
        [(1, false), (2, false), (3, false)] ∧
      ¬ InOrder (-1) (run NodeCall.step new told).applyCh) ∧
    (run NodeCall.step new older).commitIndex = 1 ∧
      ¬ Guarded NodeCall.step (fun r call => call.Forward r) new older := by
  decide +kernel

end KairosFlux.Raft
