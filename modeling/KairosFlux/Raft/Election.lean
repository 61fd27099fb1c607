import KairosFlux.Raft.Rounds

/-! Elections. A vote outlives timeouts and restarts: whoever has voted in a term remembers it, in
memory and on disk, until it reaches a later term. A candidate whose count times out forgets its own
vote, but it can no longer win that term. -/

namespace KairosFlux.Raft

open Lib Node

variable {n : Nat}

/-- A term and vote from which no second vote in the term can follow. -/
def Holds (T : Nat) (candidate : Fin n) (state : Nat × Option (Fin n)) : Prop :=
  T < state.1 ∨ state = (T, some candidate)

theorem Holds.le {T : Nat} {candidate : Fin n} {state : Nat × Option (Fin n)}
    (holds : Holds T candidate state) : T ≤ state.1 := by
  rcases holds with later | rfl
  · exact later.le
  · exact le_rfl

theorem Holds.vote {T : Nat} {candidate : Fin n} {state : Nat × Option (Fin n)}
    (holds : Holds T candidate state) (current : state.1 = T) : state.2 = some candidate := by
  rcases holds with later | rfl
  · exact absurd current later.ne'
  · rfl

namespace Node

def ballot (r : Node n) : Nat × Option (Fin n) := (r.term, r.votedFor)

/-- A step that gives no vote: what is held stays held, and who stands does so as before. -/
structure Steady (r after : Node n) : Prop where
  remembers : ∀ T candidate, Holds T candidate r.ballot → Holds T candidate r.wal.state →
    Holds T candidate after.ballot ∧ Holds T candidate after.wal.state
  stands : after.state ≠ .follower → after.state = r.state ∧ after.ballot = r.ballot ∧
    (after.wal.state = r.wal.state ∨ after.wal.state = r.ballot)

namespace Steady

variable {r middle after : Node n}

theorem of_eq (state : after.state = r.state ∨ after.state = .follower)
    (ballot : after.ballot = r.ballot) (file : after.wal.state = r.wal.state) : Steady r after where
  remembers T candidate memory disk := by
    rw [ballot, file]
    exact ⟨memory, disk⟩
  stands standing := ⟨state.resolve_right standing, ballot, .inl file⟩

theorem refl (r : Node n) : Steady r r := of_eq (.inl rfl) rfl rfl

theorem trans (first : Steady r middle) (second : Steady middle after) : Steady r after where
  remembers T candidate memory disk := by
    rcases first.remembers T candidate memory disk with ⟨memory, disk⟩
    exact second.remembers T candidate memory disk
  stands standing := by
    rcases second.stands standing with ⟨state, ballot, file⟩
    rcases first.stands (state ▸ standing) with ⟨stateBefore, ballotBefore, fileBefore⟩
    refine ⟨state.trans stateBefore, ballot.trans ballotBefore, ?_⟩
    rcases file with same | written
    · rw [same]
      exact fileBefore
    · exact .inr (written.trans ballotBefore)

theorem persist (steady : Steady r after) : Steady r after.persistStateLocked := by
  apply steady.trans
  constructor
  case remembers => exact fun _ _ memory _ => ⟨memory, memory⟩
  case stands => exact fun _ => ⟨rfl, rfl, .inr rfl⟩

theorem rise (later : r.term < after.term) (state : after.state = .follower)
    (file : after.wal.state = r.wal.state) : Steady r after where
  remembers _ _ memory disk := by
    rw [file]
    exact ⟨.inl (memory.le.trans_lt later), disk⟩
  stands standing := absurd state standing

theorem apply (steady : Steady r after) : Steady r after.applyCommittedLogs := by
  apply steady.trans
  apply of_eq
  · exact .inl after.applyCommittedLogs_state
  · rw [ballot, applyCommittedLogs_term, applyCommittedLogs_votedFor]
    rfl
  · rw [applyCommittedLogs_wal]

end Steady

section

variable (r : Node n)
include r

theorem steady_handleVoteReply (reply : RequestVoteReply) :
    Steady r (r.handleVoteReply reply).1 := by
  rw [handleVoteReply]
  split_ifs with later
  · exact .rise later rfl rfl
  · exact .refl r

theorem steady_observe (candidateTerm : Nat) : Steady r (r.observe candidateTerm) := by
  rw [observe]
  split_ifs with later
  · exact .persist (.rise later rfl rfl)
  · exact .refl r

theorem steady_follow (leaderTerm : Nat) : Steady r (r.follow leaderTerm) := by
  rw [follow]
  split_ifs with later
  · constructor
    case remembers =>
      intro T candidate memory _
      have risen : T < leaderTerm := memory.le.trans_lt later
      exact ⟨.inl risen, .inl risen⟩
    case stands => exact fun standing => absurd rfl standing
  · exact .of_eq (.inr rfl) rfl rfl

theorem steady_storeEntries (entries : List LogEntry) : Steady r (r.storeEntries entries) := by
  rw [storeEntries]
  simp only
  split_ifs
  · exact .refl r
  · exact .persist (.of_eq (.inl rfl) rfl rfl)
  · exact .persist (.of_eq (.inl rfl) rfl rfl)

theorem steady_advanceCommit (leaderCommit : Int) : Steady r (r.advanceCommit leaderCommit) := by
  rw [advanceCommit]
  split_ifs
  · exact .apply (.of_eq (.inl rfl) rfl rfl)
  · exact .refl r

theorem steady_appendEntries (args : AppendEntriesArgs n) : Steady r (r.appendEntries args).1 := by
  have follows := r.steady_follow args.term
  rw [appendEntries]
  simp only
  split_ifs
  · exact .refl r
  · exact (follows.trans (steady_storeEntries _ _)).trans (steady_advanceCommit _ _)
  · exact follows

theorem steady_appendEntry (command : Bytes) : Steady r (r.appendEntry command).1 := by
  rw [appendEntry]
  split_ifs
  · exact .apply (.of_eq (.inl rfl) rfl rfl)
  · exact .of_eq (.inl rfl) rfl rfl
  · exact .refl r

theorem steady_updateCommitIndex (me : Fin n) : Steady r (r.updateCommitIndex me) := by
  rw [updateCommitIndex]
  split_ifs
  · split
    · exact .apply (.of_eq (.inl rfl) rfl rfl)
    · exact .refl r
  · exact .refl r

theorem steady_advanceMatch (peer : Fin n) (matched : Int) :
    Steady r (r.advanceMatch peer matched) := by
  rw [advanceMatch]
  split_ifs
  · exact .of_eq (.inl rfl) rfl rfl
  · exact .refl r

theorem steady_handleAppendReply (me peer : Fin n) (args : AppendEntriesArgs n)
    (reply : AppendEntriesReply) : Steady r (r.handleAppendReply me peer args reply) := by
  rw [handleAppendReply]
  split_ifs with later
  · exact .rise later rfl rfl
  · exact (r.steady_advanceMatch peer _).trans (steady_updateCommitIndex _ me)
  · exact .of_eq (.inl rfl) rfl rfl
  · exact .refl r

theorem steady_handleAppendError (peer : Fin n) : Steady r (r.handleAppendError peer) := by
  rw [handleAppendError]
  split_ifs
  · exact .of_eq (.inl rfl) rfl rfl
  · exact .refl r

theorem steady_takeSnapshot (index : Int) (full : Bool) : Steady r (r.takeSnapshot index full) := by
  rw [takeSnapshot]
  split
  · exact .refl r
  · exact .persist (.of_eq (.inl rfl) rfl rfl)

theorem steady_adopt (leaderTerm : Nat) : Steady r (r.adopt leaderTerm) := by
  rw [adopt]
  split_ifs with later
  · exact .rise later rfl rfl
  · exact .refl r

theorem steady_installSnapshot (args : InstallSnapshotArgs n) (full : Bool) :
    Steady r (r.installSnapshot args full).1 := by
  have adopts := r.steady_adopt args.term
  rw [installSnapshot]
  simp only
  split_ifs
  · exact .refl r
  · exact adopts
  · exact .persist (adopts.trans (.of_eq (.inl rfl) rfl rfl))

theorem steady_handleSnapshotReply (peer : Fin n) (reply : InstallSnapshotReply) :
    Steady r (r.handleSnapshotReply peer reply) := by
  rw [handleSnapshotReply]
  split_ifs with success later
  · exact .of_eq (.inl rfl) rfl rfl
  · exact .rise later rfl rfl
  · exact .refl r

/-- A vote is given to the only candidate the node may still vote for, and is on disk. -/
theorem requestVote_cases (args : RequestVoteArgs n) :
    ((r.requestVote args).2.voteGranted = false ∧ Steady r (r.requestVote args).1) ∨
    ((r.requestVote args).2.voteGranted = true ∧ ((r.observe args.term).votedFor = none ∨
        (r.observe args.term).votedFor = some args.candidateID) ∧
      (r.observe args.term).term = args.term ∧
      (r.observe args.term).isLogUpToDate args.lastLogIndex args.lastLogTerm ∧
      (r.requestVote args).1 =
        { r.observe args.term with votedFor := some args.candidateID }.persistStateLocked) := by
  rw [requestVote]
  simp only
  split_ifs with stale grant
  · exact .inl ⟨rfl, .refl r⟩
  · refine .inr ⟨rfl, grant.1, ?_, grant.2, rfl⟩
    rw [observe]
    split_ifs with later
    · rfl
    · exact le_antisymm (not_lt.mp stale) (not_lt.mp later)
  · exact .inl ⟨rfl, r.steady_observe args.term⟩

theorem restart_spec :
    r.restart.state = .follower ∧ r.restart.ballot = r.wal.state ∧ r.restart.wal = r.wal := by
  rw [restart]
  simp only
  split
  · exact ⟨rfl, rfl, rfl⟩
  · split_ifs
    · exact ⟨rfl, rfl, rfl⟩
    · exact ⟨rfl, rfl, rfl⟩

end

end Node

/-- The candidate can count on the node: with a vote the node has given to it, or, once it leads,
with its own. -/
def World.Backs (led : Fin n → Nat → Prop) (w : World n) (voter candidate : Fin n) (T : Nat) : Prop :=
  w.Votes voter candidate T ∨ (voter = candidate ∧ led candidate T)

/-- `led` says who has been the leader of which term. -/
structure Voting (led : Fin n → Nat → Prop) (w : World n) : Prop where
  asked : ∀ ask ∈ w.asked, ask.1 ≠ ask.2.candidateID
  granted : ∀ vote ∈ w.granted, vote.1 ≠ vote.2.candidateID
  held : ∀ voter candidate T, w.Backs led voter candidate T →
    Holds T candidate (w.nodes voter).ballot ∧ Holds T candidate (w.nodes voter).wal.state
  unique : ∀ voter first second T, w.Backs led voter first T → w.Backs led voter second T →
    first = second
  standing : ∀ p, (w.nodes p).state ≠ .follower →
    (w.nodes p).votedFor = some p ∧ (w.nodes p).wal.state = (w.nodes p).ballot
  fresh : ∀ p, (w.nodes p).state = .candidate → ¬ led p (w.nodes p).term
  leads : ∀ p, (w.nodes p).state = .leader → led p (w.nodes p).term
  quorum : ∀ p T, led p T → ∃ group : Finset (Fin n), Majority group ∧
    ∀ voter ∈ group, w.Backs led voter p T

namespace Voting

variable {led : Fin n → Nat → Prop} {w : World n}

theorem new : Voting (fun _ _ => False) (Cluster.new : Cluster n).world where
  asked := by
    rintro _ ⟨call, member, _⟩
    cases member
  granted := by
    rintro _ ⟨call, member, _⟩
    cases member
  held := by
    rintro _ _ _ (⟨_, ⟨call, member, _⟩, _⟩ | ⟨_, no⟩)
    · cases member
    · exact no.elim
  unique := by
    rintro _ _ _ _ (⟨_, ⟨call, member, _⟩, _⟩ | ⟨_, no⟩)
    · cases member
    · exact no.elim
  standing _ standing := absurd rfl standing
  fresh _ _ := not_false
  leads _ leads := nomatch leads
  quorum _ _ no := no.elim

section

variable (voting : Voting led w)
include voting

theorem leader_unique {first second : Fin n} {T : Nat} (left : led first T)
    (right : led second T) : first = second := by
  rcases voting.quorum first T left with ⟨group, majority, backs⟩
  rcases voting.quorum second T right with ⟨others, overruled, backsToo⟩
  rcases majority.meet overruled with ⟨voter, inGroup, inOthers⟩
  exact voting.unique voter first second T (backs voter inGroup) (backsToo voter inOthers)

theorem term_le {p : Fin n} {T : Nat} (leads : led p T) : T ≤ (w.nodes p).term :=
  (voting.held p p T (.inr ⟨rfl, leads⟩)).1.le

theorem of_eq {after : World n} (nodes : after.nodes = w.nodes)
    (granted : after.granted = w.granted)
    (asked : ∀ ask ∈ after.asked, ask.1 ≠ ask.2.candidateID) : Voting led after := by
  rcases w with ⟨_, _, _, _, _, _⟩
  rcases after with ⟨_, _, _, _, _, _⟩
  subst nodes granted
  exact ⟨asked, voting.granted, voting.held, voting.unique, voting.standing, voting.fresh,
    voting.leads, voting.quorum⟩

section

variable (p : Fin n)
include p

theorem setNode (after : Node n) (held : ∀ candidate T, w.Backs led p candidate T →
      Holds T candidate after.ballot ∧ Holds T candidate after.wal.state)
    (standing : after.state ≠ .follower → after.votedFor = some p ∧ after.wal.state = after.ballot)
    (fresh : after.state = .candidate → ¬ led p after.term)
    (leads : after.state = .leader → led p after.term) : Voting led (w.setNode p after) where
  __ := voting
  held voter candidate T := w.forall_setNode voter (held candidate T) fun voter _ =>
    voting.held voter candidate T
  standing q := w.forall_setNode q standing fun q _ => voting.standing q
  fresh q := w.forall_setNode q fresh fun q _ => voting.fresh q
  leads q := w.forall_setNode q leads fun q _ => voting.leads q

theorem setFollower {after : Node n} (follows : after.state = .follower)
    (held : ∀ candidate T, w.Backs led p candidate T →
      Holds T candidate after.ballot ∧ Holds T candidate after.wal.state) :
    Voting led (w.setNode p after) :=
  voting.setNode p after held (absurd follows) (by simp [follows]) (by simp [follows])

theorem steady {after : Node n}
    (steady : (w.nodes p).Steady after) : Voting led (w.setNode p after) := by
  have same : after.state ≠ .follower → after.state = (w.nodes p).state ∧
      after.term = (w.nodes p).term := fun stands =>
    ⟨(steady.stands stands).1, congrArg Prod.fst (steady.stands stands).2.1⟩
  apply voting.setNode p after
  case held =>
    intro candidate T backs
    rcases voting.held p candidate T backs with ⟨memory, disk⟩
    exact steady.remembers T candidate memory disk
  case standing =>
    intro stands
    rcases steady.stands stands with ⟨state, ballot, file⟩
    rcases voting.standing p (state ▸ stands) with ⟨vote, disk⟩
    rw [disk, or_self] at file
    exact ⟨(congrArg Prod.snd ballot).trans vote, file.trans ballot.symm⟩
  case fresh =>
    intro candidate
    rcases same (by rw [candidate]; decide) with ⟨state, term⟩
    rw [term]
    exact voting.fresh p (state ▸ candidate)
  case leads =>
    intro leader
    rcases same (by rw [leader]; decide) with ⟨state, term⟩
    rw [term]
    exact voting.leads p (state ▸ leader)

theorem timeout : Voting led (w.next (.timeout p)) := by
  have moved : Voting led (w.setNode p ((w.nodes p).startElection p).1) := by
    rw [startElection]
    split_ifs with leader
    · exact voting.steady p (.refl _)
    · apply voting.setNode
      case held =>
        intro candidate T backs
        have before := (voting.held p candidate T backs).1.le
        exact ⟨.inl (Nat.lt_succ_of_le before), .inl (Nat.lt_succ_of_le before)⟩
      case standing => exact fun _ => ⟨rfl, rfl⟩
      case fresh =>
        intro _ led
        exact absurd (voting.term_le led) (Nat.not_succ_le_self _)
      case leads => simp [persistStateLocked]
  apply moved.of_eq
  case nodes => rfl
  case granted => rfl
  case asked =>
    rintro ask (old | ⟨other, out⟩)
    · exact voting.asked ask old
    · rw [startElection] at out
      split_ifs at out
      rw [← Option.some.inj out]
      exact other

/-- A candidate whose votes did not come in has not led its term and never will. -/
theorem abandon : Voting led (w.next (.abandon p)) := by
  change Voting led (w.setNode p ((w.nodes p).abandonElection (w.nodes p).term))
  rw [abandonElection]
  split_ifs with candidate
  · apply voting.setFollower p rfl
    intro other T backs
    rcases voting.held p other T backs with ⟨memory, disk⟩
    refine ⟨.inl (memory.le.lt_of_ne fun current => ?_), disk⟩
    have vote := memory.vote current.symm
    rw [ballot, (voting.standing p (by rw [candidate.1]; decide)).1] at vote
    obtain rfl := Option.some.inj vote
    rcases backs with ⟨args, given, self, _⟩ | ⟨_, leads⟩
    · exact voting.granted (p, args) given self.symm
    · rw [current] at leads
      exact voting.fresh p candidate.1 leads
  · exact voting.steady p (.refl _)

theorem restart : Voting led (w.next (.restart p)) := by
  rcases (w.nodes p).restart_spec with ⟨state, ballot, file⟩
  apply voting.setFollower p state
  intro candidate T backs
  rw [ballot, file, and_self]
  exact (voting.held p candidate T backs).2

theorem vote (args : RequestVoteArgs n)
    (asked : (p, args) ∈ w.asked) : Voting led (w.next (.vote p args)) := by
  rcases (w.nodes p).requestVote_cases args with ⟨refused, steady⟩ | ⟨given, free, term, _, after⟩
  · apply (voting.steady p steady).of_eq
    case nodes => rfl
    case granted =>
      apply Set.union_eq_self_of_subset_right
      rintro _ ⟨_, given⟩
      rw [refused] at given
      cases given
    case asked => exact voting.asked
  · have observes := (w.nodes p).steady_observe args.term
    -- What the node has backed before is compatible with the new vote.
    have compatible : ∀ candidate T, w.Backs led p candidate T →
        Holds T candidate (args.term, some args.candidateID) := by
      intro candidate T backs
      rcases voting.held p candidate T backs with ⟨memory, disk⟩
      rcases (observes.remembers T candidate memory disk).1 with later | current
      · exact .inl (later.trans_eq term)
      · have voted : ((w.nodes p).observe args.term).votedFor = some candidate :=
          congrArg Prod.snd current
        have terms : args.term = T := term.symm.trans (congrArg Prod.fst current)
        rw [voted] at free
        rcases free with no | same
        · cases no
        · exact .inr (by rw [terms, same])
    have backs_cases : ∀ voter candidate T, (w.next (.vote p args)).Backs led voter candidate T →
        w.Backs led voter candidate T ∨
          (voter = p ∧ candidate = args.candidateID ∧ T = args.term) := by
      rintro voter candidate T (⟨_, old | ⟨same, _⟩, rfl, rfl⟩ | leads)
      · exact .inl (.inl ⟨_, old, rfl, rfl⟩)
      · obtain ⟨rfl, rfl⟩ := Prod.mk.inj same
        exact .inr ⟨rfl, rfl, rfl⟩
      · exact .inl (.inr leads)
    -- Who stands has voted for itself, and nobody asks itself.
    have follows : ((w.nodes p).requestVote args).1.state = .follower := by
      rw [after]
      by_contra standing
      rcases observes.stands standing with ⟨state, ballot, _⟩
      have own : ((w.nodes p).observe args.term).votedFor = some p :=
        (congrArg Prod.snd ballot).trans (voting.standing p (state ▸ standing)).1
      rw [own] at free
      rcases free with no | same
      · cases no
      · exact voting.asked _ asked (Option.some.inj same)
    have ballot : ((w.nodes p).requestVote args).1.ballot = (args.term, some args.candidateID) := by
      rw [after]
      exact congrArg (·, some args.candidateID) term
    have file : ((w.nodes p).requestVote args).1.wal.state = (args.term, some args.candidateID) := by
      rw [after]
      exact congrArg (·, some args.candidateID) term
    have moved : Voting led (w.setNode p ((w.nodes p).requestVote args).1) := by
      apply voting.setFollower p follows
      intro candidate T backs
      rw [ballot, file, and_self]
      exact compatible candidate T backs
    exact { moved with
      asked := voting.asked
      granted := by
        rintro vote (old | ⟨rfl, _⟩)
        · exact voting.granted vote old
        · exact voting.asked _ asked
      held := by
        intro voter candidate T backs
        rcases backs_cases voter candidate T backs with old | ⟨rfl, rfl, rfl⟩
        · exact moved.held voter candidate T old
        · change Holds _ _ ((w.setNode voter _).nodes voter).ballot ∧
            Holds _ _ ((w.setNode voter _).nodes voter).wal.state
          rw [w.nodes_setNode_self, ballot, file, and_self]
          exact .inr rfl
      unique := by
        intro voter first second T left right
        rcases backs_cases voter first T left with old | ⟨rfl, rfl, rfl⟩
        · rcases backs_cases voter second T right with oldToo | ⟨rfl, rfl, rfl⟩
          · exact voting.unique voter first second T old oldToo
          · exact (Option.some.inj ((compatible first _ old).vote rfl)).symm
        · rcases backs_cases _ second _ right with old | ⟨_, rfl, _⟩
          · exact Option.some.inj ((compatible second _ old).vote rfl)
          · rfl
      quorum := by
        intro q T leads
        rcases voting.quorum q T leads with ⟨group, majority, backs⟩
        refine ⟨group, majority, fun voter member => ?_⟩
        rcases backs voter member with ⟨vote, given, for_⟩ | own
        · exact .inl ⟨vote, .inl given, for_⟩
        · exact .inr own }

theorem win (candidate : (w.nodes p).state = .candidate)
    {group : Finset (Fin n)} (majority : Majority group)
    (votes : ∀ voter ∈ group, voter = p ∨ w.Votes voter p (w.nodes p).term) :
    Voting (fun q T => led q T ∨ (q = p ∧ T = (w.nodes p).term)) (w.next (.win p)) := by
  rcases voting.standing p (by rw [candidate]; decide) with ⟨vote, disk⟩
  have ballot : (w.nodes p).ballot = ((w.nodes p).term, some p) := by rw [ballot, vote]
  have backs_cases : ∀ voter other T,
      (w.next (.win p)).Backs (fun q T => led q T ∨ (q = p ∧ T = (w.nodes p).term)) voter other T →
        w.Backs led voter other T ∨ (voter = p ∧ other = p ∧ T = (w.nodes p).term) := by
    rintro voter other T (given | ⟨rfl, leads | ⟨rfl, current⟩⟩)
    · exact .inl (.inl given)
    · exact .inl (.inr ⟨rfl, leads⟩)
    · exact .inr ⟨rfl, rfl, current⟩
  have compatible : ∀ other, w.Backs led p other (w.nodes p).term → other = p := by
    intro other backs
    have voted := (voting.held p other _ backs).1.vote rfl
    rw [ballot] at voted
    exact (Option.some.inj voted).symm
  constructor
  case asked => exact voting.asked
  case granted => exact voting.granted
  case held =>
    intro voter other T backs
    have same : ((w.next (.win p)).nodes voter).ballot = (w.nodes voter).ballot ∧
        ((w.next (.win p)).nodes voter).wal = (w.nodes voter).wal :=
      w.forall_setNode voter ⟨rfl, rfl⟩ fun _ _ => ⟨rfl, rfl⟩
    rw [same.1, same.2]
    rcases backs_cases voter other T backs with old | ⟨rfl, rfl, rfl⟩
    · exact voting.held voter other T old
    · rw [disk, and_self]
      exact .inr ballot
  case unique =>
    intro voter first second T left right
    rcases backs_cases voter first T left with old | ⟨rfl, rfl, rfl⟩
    · rcases backs_cases voter second T right with oldToo | ⟨rfl, rfl, rfl⟩
      · exact voting.unique voter first second T old oldToo
      · exact compatible first old
    · rcases backs_cases _ second _ right with old | ⟨_, rfl, _⟩
      · exact (compatible second old).symm
      · rfl
  case standing =>
    exact fun q => w.forall_setNode q (fun _ => ⟨vote, disk⟩) fun q _ => voting.standing q
  case fresh =>
    intro q
    refine w.forall_setNode q (fun stands => nomatch stands) fun q apart stands => ?_
    rintro (leads | ⟨same, _⟩)
    · exact voting.fresh q stands leads
    · exact apart same
  case leads =>
    exact fun q => w.forall_setNode q (fun _ => .inr ⟨rfl, rfl⟩) fun q _ leader =>
      .inl (voting.leads q leader)
  case quorum =>
    rintro q T (leads | ⟨rfl, rfl⟩)
    · rcases voting.quorum q T leads with ⟨others, overrules, backs⟩
      refine ⟨others, overrules, fun voter member => ?_⟩
      exact (backs voter member).imp_right fun own => ⟨own.1, .inl own.2⟩
    · refine ⟨group, majority, fun voter member => ?_⟩
      rcases votes voter member with rfl | given
      · exact .inr ⟨rfl, .inr ⟨rfl, rfl⟩⟩
      · exact .inl given

end

theorem step {event : Event n} (allowed : w.Allowed event)
    (noWin : ∀ p, event ≠ .win p) : Voting led (w.next event) := by
  cases event with
  | timeout p => exact voting.timeout p
  | vote p args => exact voting.vote p args allowed
  | voteReply p reply => exact voting.steady p (steady_handleVoteReply _ reply)
  | win p => exact absurd rfl (noWin p)
  | abandon p => exact voting.abandon p
  | replicate p => exact voting.of_eq rfl rfl voting.asked
  | client p command => exact voting.steady p (steady_appendEntry _ command)
  | append p args =>
    exact (voting.steady p (steady_appendEntries _ args)).of_eq rfl rfl voting.asked
  | appendReply p peer args reply =>
    exact voting.steady p (steady_handleAppendReply _ p peer args reply)
  | appendError p peer => exact voting.steady p (steady_handleAppendError _ peer)
  | takeSnapshot p index full => exact voting.steady p (steady_takeSnapshot _ index full)
  | install p args full => exact voting.steady p (steady_installSnapshot _ args full)
  | snapshotReply p peer reply =>
    exact voting.steady p (steady_handleSnapshotReply _ peer reply)
  | restart p => exact voting.restart p

theorem next {event : Event n} (allowed : w.Allowed event) :
    ∃ later, led ≤ later ∧ Voting later (w.next event) := by
  by_cases wins : ∃ p, event = .win p
  · rcases wins with ⟨p, rfl⟩
    rcases allowed with ⟨candidate, group, majority, votes⟩
    exact ⟨_, fun _ _ => Or.inl, voting.win p candidate majority votes⟩
  · exact ⟨led, le_rfl, voting.step allowed fun p same => wins ⟨p, same⟩⟩

end

end Voting

def Led (inputs : List (Input n)) (p : Fin n) (T : Nat) : Prop :=
  ∃ start, start <+: inputs ∧ ((run Cluster.step Cluster.new start).nodes p).state = .leader ∧
    ((run Cluster.step Cluster.new start).nodes p).term = T

theorem voting_run (inputs : List (Input n)) : ∃ led, (∀ p T, Led inputs p T → led p T) ∧
      Cluster.Counting (run Cluster.step Cluster.new inputs) ∧
      Voting led (run Cluster.step Cluster.new inputs).world := by
  induction inputs using List.reverseRecOn with
  | nil =>
    refine ⟨_, ?_, .new, .new⟩
    rintro p T ⟨start, before, leads, _⟩
    rw [List.prefix_nil.mp before] at leads
    cases leads
  | append_singleton inputs input ih =>
    rcases ih with ⟨led, recorded, counting, voting⟩
    rcases counting.recorded_step (fun _ => le_rfl) (fun _ _ _ => le_trans)
      (fun _ _ _ voting allowed => Voting.next voting allowed.1) led voting input
      (counting.allowed input) with ⟨later, grown, stepped⟩
    have reached : run Cluster.step Cluster.new (inputs ++ [input]) =
        (run Cluster.step Cluster.new inputs).step input := run_append _ _ _ _
    refine ⟨later, ?_, reached ▸ counting.step input, reached ▸ stepped⟩
    rintro p T ⟨start, before, leads, rfl⟩
    rcases List.prefix_concat_iff.mp before with rfl | earlier
    · rw [reached] at leads ⊢
      exact stepped.leads p leads
    · exact grown p _ (recorded p _ ⟨start, earlier, leads, rfl⟩)

/-- A term has at most one leader, over the whole run. -/
theorem led_subsingleton (inputs : List (Input n)) (T : Nat) : { p | Led inputs p T }.Subsingleton := by
  intro first left second right
  rcases voting_run inputs with ⟨led, recorded, _, voting⟩
  exact voting.leader_unique (recorded first T left) (recorded second T right)

/-- Node 0 wins the first term of three nodes with the vote of node 1. -/
theorem led_first_term :
    { p : Fin 3 | Led [.electionTimeout 0, .deliverVote 0, .returnVote 0 0, .receiveVote 0] p 1 } = {0} := by
  apply (led_subsingleton _ 1).eq_singleton_of_mem
  exact ⟨_, List.prefix_rfl, by decide, by decide⟩

/-- A node grants the requests of one candidate in a term at most, through restarts too, and its
grant stays on disk up to a later term. -/
theorem votes_subsingleton (inputs : List (Input n)) (voter : Fin n) (T : Nat) :
    let w := (run Cluster.step Cluster.new inputs).world
    { candidate | w.Votes voter candidate T }.Subsingleton ∧
      { candidate | w.Votes voter candidate T } ⊆
        { candidate | Holds T candidate (w.nodes voter).wal.state } := by
  intro w
  rcases voting_run inputs with ⟨led, _, _, voting⟩
  constructor
  · intro first left second right
    exact voting.unique voter first second T (.inl left) (.inl right)
  · intro candidate votes
    exact (voting.held voter candidate T (.inl votes)).2

end KairosFlux.Raft
