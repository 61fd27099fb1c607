import KairosFlux.Lib.TermLogs
import KairosFlux.Raft.Node

/-! What the functions of a node do to its log as long as there is no snapshot: the position of an
entry is its index, and a follower that takes entries over ends with the log they were cut from, or
keeps its own because it already has them. -/

namespace KairosFlux.Raft

open Lib List Option

variable {n : Nat}

def Indexed (log : List LogEntry) : Prop :=
  ∀ front entry, front ++ [entry] <+: log → entry.index = front.length

theorem Indexed.beginning {first second : List LogEntry} (indexed : Indexed second)
    (shorter : first <+: second) : Indexed first :=
  fun front entry inside => indexed front entry (inside.trans shorter)

variable {log : List LogEntry} {entry : LogEntry}

theorem Indexed.append (indexed : Indexed log)
    (next : entry.index = log.length) : Indexed (log ++ [entry]) := by
  intro front other inside
  rcases prefix_concat_iff.mp inside with whole | earlier
  · rcases append_inj' whole rfl with ⟨rfl, same⟩
    rw [List.cons.inj same |>.1]
    exact next
  · exact indexed front other earlier

theorem getElem?_beginning {front : List LogEntry}
    (inside : front ++ [entry] <+: log) : log[front.length]? = some entry := by
  rcases inside with ⟨back, rfl⟩
  simp

theorem prefix_of_getElem? {front : List LogEntry} (held : front <+: log)
    (found : log[front.length]? = some entry) : front ++ [entry] <+: log := by
  rcases held with ⟨back, rfl⟩
  cases back with
  | nil => simp at found
  | cons first rest =>
    have same : first = entry := by simpa using found
    exact ⟨rest, by simp [same]⟩

namespace Node

theorem mergeEntries_log {h : Reigns (Fin n) LogEntry} {front entries log added : List LogEntry}
    {rebuild : Bool} {relIndex : Int → Int} (base : ∀ index, relIndex index = index)
    (held : front <+: log) (indexed : Indexed (front ++ entries))
    (own : Grounded LogEntry.term h log) (offered : Grounded LogEntry.term h (front ++ entries)) :
    front ++ entries <+: log ∧ (mergeEntries relIndex entries (log, rebuild, added)).1 = log ∨
      ¬ front ++ entries <+: log ∧
        (mergeEntries relIndex entries (log, rebuild, added)).1 = front ++ entries := by
  induction entries generalizing front log added rebuild with
  | nil =>
    rw [append_nil]
    exact .inl ⟨held, rfl⟩
  | cons entry rest ih =>
    rw [append_cons] at indexed offered ⊢
    have upTo : front ++ [entry] <+: front ++ [entry] ++ rest := prefix_append _ _
    have place : relIndex entry.index = front.length := by
      rw [base]
      exact indexed front entry upTo
    -- Once the entry is put behind `front`, the rest is appended to it.
    have taken : ∀ rebuild added,
        (mergeEntries relIndex rest (front ++ [entry], rebuild, added)).1 =
          front ++ [entry] ++ rest := by
      intro rebuild added
      rcases ih prefix_rfl indexed (offered.beginning upTo) offered with ⟨all, same⟩ | ⟨_, same⟩
      · rw [same]
        exact upTo.eq_of_length_le all.length_le
      · exact same
    rw [mergeEntries]
    simp only [place, Int.toNat_natCast, not_lt.mpr (Int.natCast_nonneg _), if_false]
    cases found : log[front.length]? with
    | none =>
      right
      rw [List.getElem?_eq_none_iff] at found
      obtain rfl := held.eq_of_length_le found
      constructor
      · intro all
        have longer := (upTo.trans all).length_le
        rw [length_append] at longer
        exact Nat.not_succ_le_self _ longer
      · simp only [any_none, Bool.false_eq_true, if_false, le_refl, if_true]
        exact taken _ _
    | some old =>
      have inLog : front ++ [old] <+: log := prefix_of_getElem? held found
      by_cases same : old.term = entry.term
      · have equal := own.eq_of_term offered inLog upTo rfl same
        have there : ¬ log.length ≤ front.length := by
          rw [not_le]
          exact (List.getElem?_eq_some_iff.mp found).1
        simp only [any_some, same, ne_eq, not_true_eq_false, decide_false,
          Bool.false_eq_true, if_false, there]
        exact ih (equal ▸ inLog) indexed own offered
      · right
        constructor
        · intro all
          have here := getElem?_beginning (upTo.trans all)
          rw [found] at here
          exact same (congrArg LogEntry.term (some.inj here))
        · have cut : log.take front.length = front := (prefix_iff_eq_take.mp held).symm
          simp only [any_some, ne_eq, same, not_false_eq_true, decide_true, if_true, cut, le_refl]
          exact taken _ _

variable {r : Node n}

theorem relIndex_eq (base : r.lastIncludedIndex = 0) (index : Int) : r.relIndex index = index := by
  rw [relIndex, base]
  simp

theorem getLastLogIndex_eq (base : r.lastIncludedIndex = 0) (indexed : Indexed r.log) :
    r.getLastLogIndex = r.log.length - 1 := by
  rw [getLastLogIndex]
  rcases r.log.eq_nil_or_concat' with empty | ⟨front, last, split⟩
  · simp [empty, base]
  · rw [split] at indexed ⊢
    have place := indexed front last prefix_rfl
    simp [place]

structure KeepsLog (r after : Node n) : Prop where
  log : after.log = r.log
  base : after.lastIncludedIndex = r.lastIncludedIndex
  term : r.term ≤ after.term
  leads : after.state = .leader → r.state = .leader ∧ after.term = r.term

structure Unmoved (r after : Node n) : Prop extends KeepsLog r after where
  commitIndex : after.commitIndex = r.commitIndex
  applyCh : after.applyCh = r.applyCh

structure Quiet (r after : Node n) : Prop extends Unmoved r after where
  nextIndex : after.nextIndex = r.nextIndex
  matchIndex : after.matchIndex = r.matchIndex

theorem KeepsLog.trans {middle after : Node n} (first : KeepsLog r middle)
    (second : KeepsLog middle after) : KeepsLog r after where
  log := second.log.trans first.log
  base := second.base.trans first.base
  term := first.term.trans second.term
  leads leader := by
    rcases second.leads leader with ⟨before, same⟩
    rcases first.leads before with ⟨start, sameToo⟩
    exact ⟨start, same.trans sameToo⟩

theorem KeepsLog.apply {after : Node n} (keeps : KeepsLog r after) :
    KeepsLog r after.applyCommittedLogs where
  log := after.applyCommittedLogs_log.trans keeps.log
  base := after.applyCommittedLogs_lastIncludedIndex.trans keeps.base
  term := keeps.term.trans_eq after.applyCommittedLogs_term.symm
  leads leader := by
    rw [applyCommittedLogs_state] at leader
    rw [applyCommittedLogs_term]
    exact keeps.leads leader

theorem Quiet.refl (r : Node n) : Quiet r r :=
  ⟨⟨⟨rfl, rfl, le_rfl, fun leads => ⟨leads, rfl⟩⟩, rfl, rfl⟩, rfl, rfl⟩

variable (r : Node n)

variable (me peer : Fin n) (args : AppendEntriesArgs n)

theorem quiet_startElection : Quiet r (r.startElection me).1 := by
  rw [startElection]
  split_ifs
  · exact .refl r
  · exact ⟨⟨⟨rfl, rfl, Nat.le_succ _, fun leads => nomatch leads⟩, rfl, rfl⟩, rfl, rfl⟩

theorem quiet_handleVoteReply (reply : RequestVoteReply) : Quiet r (r.handleVoteReply reply).1 := by
  rw [handleVoteReply]
  split_ifs with later
  · exact ⟨⟨⟨rfl, rfl, later.le, fun leads => nomatch leads⟩, rfl, rfl⟩, rfl, rfl⟩
  · exact .refl r

theorem quiet_abandonElection (electionTerm : Nat) : Quiet r (r.abandonElection electionTerm) := by
  rw [abandonElection]
  split_ifs
  · exact ⟨⟨⟨rfl, rfl, le_rfl, fun leads => nomatch leads⟩, rfl, rfl⟩, rfl, rfl⟩
  · exact .refl r

theorem quiet_observe (candidateTerm : Nat) : Quiet r (r.observe candidateTerm) := by
  rw [observe]
  split_ifs with later
  · exact ⟨⟨⟨rfl, rfl, later.le, fun leads => nomatch leads⟩, rfl, rfl⟩, rfl, rfl⟩
  · exact .refl r

theorem quiet_requestVote (args : RequestVoteArgs n) : Quiet r (r.requestVote args).1 := by
  have observes := r.quiet_observe args.term
  rw [requestVote]
  simp only
  split_ifs
  · exact .refl r
  · exact ⟨⟨⟨observes.log, observes.base, observes.term, observes.leads⟩, observes.commitIndex,
      observes.applyCh⟩, observes.nextIndex, observes.matchIndex⟩
  · exact observes

theorem quiet_follow {leaderTerm : Nat} (onward : r.term ≤ leaderTerm) :
    Quiet r (r.follow leaderTerm) ∧ (r.follow leaderTerm).term = leaderTerm ∧
      (r.follow leaderTerm).state = .follower := by
  rw [follow]
  split_ifs with later
  · exact ⟨⟨⟨⟨rfl, rfl, onward, fun leads => nomatch leads⟩, rfl, rfl⟩, rfl, rfl⟩, rfl, rfl⟩
  · refine ⟨⟨⟨⟨rfl, rfl, le_rfl, fun leads => nomatch leads⟩, rfl, rfl⟩, rfl, rfl⟩, ?_, rfl⟩
    exact le_antisymm onward (not_lt.mp later)

theorem keepsLog_updateCommitIndex : KeepsLog r (r.updateCommitIndex me) := by
  rw [updateCommitIndex]
  split_ifs
  · split
    · exact .apply ⟨rfl, rfl, le_rfl, fun leads => ⟨leads, rfl⟩⟩
    · exact (Quiet.refl r).toKeepsLog
  · exact (Quiet.refl r).toKeepsLog

theorem advanceMatch_spec (matched : Int) : ∃ nextIndex matchIndex, r.advanceMatch peer matched =
      { r with nextIndex := nextIndex, matchIndex := matchIndex } := by
  rw [advanceMatch]
  split_ifs
  · exact ⟨_, _, rfl⟩
  · exact ⟨r.nextIndex, r.matchIndex, rfl⟩

theorem keepsLog_advanceMatch (matched : Int) : KeepsLog r (r.advanceMatch peer matched) := by
  rcases r.advanceMatch_spec peer matched with ⟨_, _, same⟩
  rw [same]
  exact ⟨rfl, rfl, le_rfl, fun leads => ⟨leads, rfl⟩⟩

theorem keepsLog_handleAppendReply
    (reply : AppendEntriesReply) : KeepsLog r (r.handleAppendReply me peer args reply) := by
  rw [handleAppendReply]
  split_ifs with later
  · exact ⟨rfl, rfl, later.le, fun leads => nomatch leads⟩
  · exact (r.keepsLog_advanceMatch peer _).trans (keepsLog_updateCommitIndex _ me)
  · exact ⟨rfl, rfl, le_rfl, fun leads => ⟨leads, rfl⟩⟩
  · exact (Quiet.refl r).toKeepsLog

theorem keepsLog_handleAppendError : KeepsLog r (r.handleAppendError peer) := by
  rw [handleAppendError]
  split_ifs
  · exact ⟨rfl, rfl, le_rfl, fun leads => ⟨leads, rfl⟩⟩
  · exact (Quiet.refl r).toKeepsLog

theorem keepsLog_advanceCommit (leaderCommit : Int) : KeepsLog r (r.advanceCommit leaderCommit) := by
  rw [advanceCommit]
  split_ifs
  · exact .apply ⟨rfl, rfl, le_rfl, fun leads => ⟨leads, rfl⟩⟩
  · exact (Quiet.refl r).toKeepsLog

theorem advanceCommit_state (leaderCommit : Int) :
    (r.advanceCommit leaderCommit).state = r.state := by
  rw [advanceCommit]
  split_ifs
  · exact applyCommittedLogs_state _
  · rfl

theorem storeEntries_spec (entries : List LogEntry) : ∃ wal, r.storeEntries entries =
      { r with log := (mergeEntries r.relIndex entries (r.log, false, [])).1, wal := wal } := by
  rw [storeEntries]
  by_cases empty : entries = []
  · rw [empty]
    exact ⟨r.wal, rfl⟩
  · simp only [empty, if_false]
    exact ⟨_, rfl⟩

theorem prevMatches_follow (leaderTerm : Nat) (args : AppendEntriesArgs n) :
    (r.follow leaderTerm).prevMatches args = r.prevMatches args := by
  rw [follow]
  split_ifs
  · rfl
  · rfl

theorem appendEntries_cases :
    ((r.appendEntries args).2.success = false ∧ Quiet r (r.appendEntries args).1) ∨
    ((r.appendEntries args).2.success = true ∧ r.term ≤ args.term ∧ r.prevMatches args ∧
      (r.appendEntries args).1 =
        ((r.follow args.term).storeEntries args.entries).advanceCommit args.leaderCommit) := by
  rw [appendEntries]
  simp only
  split_ifs with stale accepted
  · exact .inl ⟨rfl, .refl r⟩
  · exact .inr ⟨rfl, not_lt.mp stale, r.prevMatches_follow args.term args ▸ accepted, rfl⟩
  · exact .inl ⟨rfl, (r.quiet_follow (not_lt.mp stale)).1⟩

theorem follow_storeEntries {leaderTerm : Nat} (onward : r.term ≤ leaderTerm)
    (entries : List LogEntry) :
    ∃ wal vote, (r.follow leaderTerm).storeEntries entries = { r with
        state := .follower
        term := leaderTerm
        votedFor := vote
        log := (mergeEntries r.relIndex entries (r.log, false, [])).1
        wal := wal } := by
  rcases (r.follow leaderTerm).storeEntries_spec entries with ⟨wal, same⟩
  rw [same, follow]
  split_ifs with later
  · exact ⟨wal, none, rfl⟩
  · obtain rfl : r.term = leaderTerm := le_antisymm onward (not_lt.mp later)
    exact ⟨wal, r.votedFor, rfl⟩

/-- The request brings the entries of the leader's log behind a part of it. -/
def Carries (h : Reigns (Fin n) LogEntry) (args : AppendEntriesArgs n) (front : List LogEntry) : Prop :=
  (front.length : Int) = args.prevLogIndex + 1 ∧ front ++ args.entries <+: h.log args.term ∧
    ∀ before last, front = before ++ [last] → last.term = args.prevLogTerm

variable {r} {h : Reigns (Fin n) LogEntry} {args : AppendEntriesArgs n} {front : List LogEntry}

theorem front_held (base : r.lastIncludedIndex = 0) (own : Grounded LogEntry.term h r.log)
    (offered : Grounded LogEntry.term h front) (carries : Carries h args front)
    (accepted : r.prevMatches args) : front <+: r.log := by
  rcases carries with ⟨length, _, ends⟩
  rcases front.eq_nil_or_concat' with rfl | ⟨before, last, rfl⟩
  · exact nil_prefix
  · rw [length_append, length_singleton] at length
    have place : args.prevLogIndex = before.length := by omega
    have found : r.log[before.length]?.any fun entry => entry.term = args.prevLogTerm := by
      rw [prevMatches, base, relIndex_eq base, entryAt, place] at accepted
      split_ifs at accepted with negative snapshot inside
      · exact absurd negative (not_lt.mpr (Int.natCast_nonneg _))
      · exact absurd snapshot.2 (lt_irrefl _)
      · rwa [Int.toNat_natCast] at accepted
    cases there : r.log[before.length]? with
    | none =>
      rw [there] at found
      cases found
    | some entry =>
      rw [there, any_some, decide_eq_true_iff, ← ends before last rfl] at found
      have short : (r.log.take before.length).length = before.length :=
        length_take_of_le (List.getElem?_eq_some_iff.mp there).1.le
      have inLog : r.log.take before.length ++ [entry] <+: r.log :=
        prefix_of_getElem? (List.take_prefix _ _) (by rw [short]; exact there)
      rw [← own.eq_of_term offered inLog prefix_rfl short found]
      exact inLog

theorem carries_replicateTo (base : r.lastIncludedIndex = 0) (leads : r.log = h.log r.term)
    {me peer : Fin n} (sent : r.replicateTo me peer = .entries args) (start : 0 ≤ r.nextIndex peer)
    (inside : r.nextIndex peer ≤ r.log.length) :
    Carries h args (r.log.take (r.nextIndex peer).toNat) := by
  obtain rfl := r.replicateTo_entries sent
  refine ⟨?_, ?_, ?_⟩
  · simp only
    rw [length_take]
    omega
  · simp only [relIndex_eq base, not_lt.mpr start, if_false, take_append_drop, leads]
    exact prefix_rfl
  · intro before last split
    have shared : before ++ [last] <+: r.log := split ▸ take_prefix _ _
    have length := congrArg List.length split
    rw [length_take, length_append, length_singleton] at length
    have place : r.nextIndex peer - 1 = before.length := by omega
    rw [getTermAt, relIndex_eq base, entryAt, base, place, Int.toNat_natCast,
      getElem?_beginning shared]
    simp [not_lt.mpr (Int.natCast_nonneg before.length)]

theorem keepsLog_appendEntry (leader : r.state = .leader) (command : Bytes) :
    KeepsLog (r.addEntry (r.newEntry command)) (r.appendEntry command).1 := by
  rw [appendEntry, if_pos leader]
  split_ifs
  · exact .apply ⟨rfl, rfl, le_rfl, fun leads => ⟨leads, rfl⟩⟩
  · exact (Quiet.refl _).toKeepsLog

end Node

end KairosFlux.Raft
