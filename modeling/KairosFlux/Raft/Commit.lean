import KairosFlux.Raft.LogMatching

/-! What is committed. A majority that has acknowledged an entry of the current term in this term
makes it and all before it safe: every later leader has them. The leader counts majorities by
`matchIndex`, and that is an account of acknowledgements only under conditions on the replies it
handles. -/

namespace KairosFlux.Raft

open Lib Node

variable {n : Nat}

namespace World

/-- The node has acknowledged the log in the term, to the leader or as the leader. -/
def Acked (h : Reigns (Fin n) LogEntry) (w : World n) (p : Fin n) (T : Nat) (log : List LogEntry) :
    Prop :=
  log <+: h.log T ∧ (h.leader T = some p ∨ ∃ args, (p, args) ∈ w.acked ∧ args.term = T ∧
    (log.length : Int) ≤ args.prevLogIndex + 1 + args.entries.length)

def clock (w : World n) (p : Fin n) : Nat := (w.nodes p).term

/-- Part of a log that was committed by the given term. -/
def Safe (h : Reigns (Fin n) LogEntry) (w : World n) (T : Nat) (log : List LogEntry) : Prop :=
  log = [] ∨ ∃ U whole, U ≤ T ∧ Committed LogEntry.term h (w.Acked h) U whole ∧ log <+: whole

/-- What a step of the group does to acknowledgements: there are more of them, and new ones are
given in the current term of a node. -/
structure Grows (h : Reigns (Fin n) LogEntry) (w : World n) (later : Reigns (Fin n) LogEntry)
    (after : World n) : Prop where
  extension : h.Extends later
  clock : ∀ p, w.clock p ≤ after.clock p
  acked : ∀ p T log, w.Acked h p T log → after.Acked later p T log
  new : ∀ p T log, after.Acked later p T log → w.Acked h p T log ∨ w.clock p ≤ T

variable {h later : Reigns (Fin n) LogEntry} {w after : World n} {T U : Nat}
  {log shorter : List LogEntry}

theorem Safe.beginning (safe : w.Safe h T log) (inside : shorter <+: log) : w.Safe h T shorter := by
  rcases safe with rfl | ⟨U, whole, onward, committed, within⟩
  · exact .inl (List.prefix_nil.mp inside)
  · exact .inr ⟨U, whole, onward, committed, inside.trans within⟩

theorem Safe.mono (safe : w.Safe h T log) (onward : T ≤ U) : w.Safe h U log := by
  rcases safe with rfl | ⟨V, whole, before, committed, within⟩
  · exact .inl rfl
  · exact .inr ⟨V, whole, before.trans onward, committed, within⟩

theorem Safe.extend (safe : w.Safe h T log) (extension : h.Extends later)
    (acked : w.acked ⊆ after.acked) : after.Safe later T log := by
  rcases safe with rfl | ⟨U, whole, onward, ⟨ruled, inside, ending, group, majority, acks⟩, within⟩
  · exact .inl rfl
  · refine .inr ⟨U, whole, onward, ⟨extension.ruled ruled, inside.trans (extension.log U ruled),
      ending, group, majority, fun q member => ?_⟩, within⟩
    rcases acks q member with ⟨_, source⟩
    refine ⟨inside.trans (extension.log U ruled), ?_⟩
    rw [extension.leader U ruled]
    apply source.imp_right
    rintro ⟨args, ack, rest⟩
    exact ⟨args, acked ack, rest⟩

theorem acked_subset_next (w : World n) (event : Event n) : w.acked ⊆ (w.next event).acked := by
  cases event with
  | append p args => exact Set.subset_union_left
  | _ => exact Set.Subset.rfl

theorem acked_subset_run (w : World n) (events : List (Event n)) :
    w.acked ⊆ (run next w events).acked := by
  induction events generalizing w with
  | nil => exact Set.Subset.rfl
  | cons event rest ih => exact (w.acked_subset_next event).trans (ih (w.next event))

theorem Safe.grow (safe : w.Safe h T log) (grows : w.Grows h later after) :
    after.Safe later T log := by
  rcases safe with rfl | ⟨U, whole, onward, committed, within⟩
  · exact .inl rfl
  · exact .inr ⟨U, whole, onward, committed.mono grows.extension grows.acked, within⟩

end World

/-- The last entry of the log as a candidate announces it. -/
def Announces (args : RequestVoteArgs n) (log : List LogEntry) : Prop :=
  args.lastLogIndex = log.length - 1 ∧ args.lastLogTerm = log.getLast?.elim 0 LogEntry.term

/-- The announced entry is not older than the last one of the log. -/
def Newer (args : RequestVoteArgs n) (log : List LogEntry) : Prop :=
  ∀ front last, log = front ++ [last] → last.term < args.lastLogTerm ∨
    (last.term = args.lastLogTerm ∧ (front.length : Int) ≤ args.lastLogIndex)

theorem Announces.upToDate {args : RequestVoteArgs n} {first second : List LogEntry}
    (announces : Announces args first) (newer : Newer args second) :
    UpToDate LogEntry.term first second := by
  intro front last split
  rcases announces with ⟨index, term⟩
  have voted := newer front last split
  rcases first.eq_nil_or_concat' with rfl | ⟨before, top, rfl⟩
  · rw [index, term] at voted
    simp at voted
    omega
  · refine ⟨before, top, rfl, ?_⟩
    rw [index, term] at voted
    simpa using voted

/-- Vote requests of a candidate announce the log it has. -/
structure Canvass (w : World n) : Prop where
  recent : ∀ ask ∈ w.asked, ask.2.term ≤ (w.nodes ask.2.candidateID).term
  announced : ∀ ask ∈ w.asked, (w.nodes ask.2.candidateID).state = .candidate →
    ask.2.term = (w.nodes ask.2.candidateID).term → Announces ask.2 (w.nodes ask.2.candidateID).log
  granted : w.granted ⊆ w.asked

/-- The request brings entries of the leader's log, and its commit index is about them. -/
def Offers (h : Reigns (Fin n) LogEntry) (w : World n) (args : AppendEntriesArgs n) : Prop :=
  ∃ front, Node.Carries h args front ∧ args.leaderCommit < (front ++ args.entries).length ∧
    w.Safe h args.term ((front ++ args.entries).take (args.leaderCommit + 1).toNat)

/-- What a leader knows of a peer. An index of 0 says nothing. -/
def Tracks (w : World n) (r : Node n) (peer : Fin n) : Prop :=
  0 ≤ r.nextIndex peer ∧ r.nextIndex peer ≤ r.log.length ∧
    (r.matchIndex peer ≤ 0 ∨ ∃ args, (peer, args) ∈ w.acked ∧ args.term = r.term ∧
      r.matchIndex peer = args.prevLogIndex + args.entries.length)

/-- What the node has committed and applied is safe. -/
structure Settled (h : Reigns (Fin n) LogEntry) (w : World n) (r : Node n) : Prop where
  start : -1 ≤ r.commitIndex
  inside : r.commitIndex < r.log.length
  committed : w.Safe h r.term (r.log.take (r.commitIndex + 1).toNat)
  applied : ∀ entry ∈ r.applyCh, ∃ front : List LogEntry, (front.length : Int) = entry.index ∧
    w.Safe h r.term (front ++ [entry])

def Cast (h : Reigns (Fin n) LogEntry) (w : World n) (voter : Fin n) (args : RequestVoteArgs n) : Prop :=
  ∃ log, Grounded LogEntry.term h log ∧ Newer args log ∧ ∀ T held, T < args.term →
    w.Acked h voter T held → held <+: log ∨ Lost h T args.term held

structure Committing (h : Reigns (Fin n) LogEntry) (w : World n) : Prop where
  matching : Matching h w
  canvass : Canvass w
  acked : w.acked ⊆ w.sent
  offers : ∀ send ∈ w.sent, Offers h w send.2
  tracks : ∀ p, (w.nodes p).state = .leader → ∀ peer, Tracks w (w.nodes p) peer
  acks : ∀ p T log, w.Acked h p T log →
    T ≤ w.clock p ∧ (log <+: (w.nodes p).log ∨ Lost h T (w.clock p + 1) log)
  ballots : ∀ vote ∈ w.granted, h.leader vote.2.term = none → Cast h w vote.1 vote.2
  elections : ∀ U, h.leader U ≠ none → Elected LogEntry.term h (w.Acked h) w.clock U
  settled : ∀ p, Settled h w (w.nodes p)

section Growth

variable {h later : Reigns (Fin n) LogEntry} {w after : World n}

theorem World.Grows.of_acked (acked : after.acked = w.acked) (clock : ∀ p, w.clock p ≤ after.clock p) :
    w.Grows h h after := by
  have same : ∀ p T log, after.Acked h p T log ↔ w.Acked h p T log := by
    intro p T log
    rw [World.Acked, World.Acked, acked]
  constructor
  case extension => exact .refl h
  case clock => exact clock
  case acked => exact fun p T log => (same p T log).mpr
  case new => exact fun p T log new => .inl ((same p T log).mp new)

theorem Offers.grow {args : AppendEntriesArgs n} (offers : Offers h w args)
    (grows : w.Grows h later after) (ruled : h.leader args.term ≠ none) : Offers later after args := by
  rcases offers with ⟨front, carries, inside, safe⟩
  exact ⟨front, carries.extend grows.extension ruled, inside, safe.grow grows⟩

/-- A node votes only in terms it has reached, and acknowledges nothing more in earlier ones. -/
theorem Cast.grow {voter : Fin n} {args : RequestVoteArgs n} (cast : Cast h w voter args)
    (grows : w.Grows h later after) (reached : args.term ≤ w.clock voter) :
    Cast later after voter args := by
  rcases cast with ⟨log, grounded, newer, kept⟩
  refine ⟨log, grows.extension.grounded grounded, newer, fun T held before acks => ?_⟩
  rcases grows.new voter T held acks with old | current
  · exact (kept T held before old).imp_right grows.extension.lost
  · exact absurd (reached.trans current) (not_le.mpr before)

variable {r : Node n}

theorem Settled.grow (settled : Settled h w r) (grows : w.Grows h later after) :
    Settled later after r where
  __ := settled
  committed := settled.committed.grow grows
  applied entry member := by
    rcases settled.applied entry member with ⟨front, place, safe⟩
    exact ⟨front, place, safe.grow grows⟩

theorem Settled.unmoved {next : Node n} (settled : Settled h w r) (unmoved : r.Unmoved next) :
    Settled h w next where
  start := unmoved.commitIndex ▸ settled.start
  inside := by
    rw [unmoved.commitIndex, unmoved.log]
    exact settled.inside
  committed := by
    rw [unmoved.commitIndex, unmoved.log]
    exact settled.committed.mono unmoved.term
  applied entry member := by
    rw [unmoved.applyCh] at member
    rcases settled.applied entry member with ⟨front, place, safe⟩
    exact ⟨front, place, safe.mono unmoved.term⟩

theorem Tracks.quiet {next : Node n} {peer : Fin n} (tracks : Tracks w r peer)
    (quiet : r.Quiet next) (term : next.term = r.term) (acked : w.acked ⊆ after.acked) :
    Tracks after next peer := by
  rcases tracks with ⟨start, inside, matched⟩
  rw [Tracks, quiet.nextIndex, quiet.matchIndex, quiet.log, term]
  refine ⟨start, inside, matched.imp_right ?_⟩
  rintro ⟨args, ack, sameTerm, index⟩
  exact ⟨args, acked ack, sameTerm, index⟩

theorem Committing.advance (committing : Committing h w) (grows : w.Grows h later after)
    (matching : Matching later after) (canvass : Canvass after) (acked : after.acked ⊆ after.sent)
    (offers : ∀ send ∈ after.sent, send ∈ w.sent ∨ Offers later after send.2)
    (tracks : ∀ p, (after.nodes p).state = .leader → ∀ peer, Tracks after (after.nodes p) peer)
    (kept : ∀ p T log, w.Acked h p T log → log <+: (w.nodes p).log →
      log <+: (after.nodes p).log ∨ Lost later T (after.clock p + 1) log)
    (fresh : ∀ p T log, after.Acked later p T log → w.Acked h p T log ∨
      (T ≤ after.clock p ∧ log <+: (after.nodes p).log))
    (ballots : ∀ vote ∈ after.granted, later.leader vote.2.term = none →
      vote ∈ w.granted ∨ Cast later after vote.1 vote.2)
    (elections : ∀ U, later.leader U ≠ none → h.leader U ≠ none ∨
      Elected LogEntry.term later (after.Acked later) after.clock U)
    (settled : ∀ p, Settled later after (after.nodes p)) : Committing later after where
  matching := matching
  canvass := canvass
  acked := acked
  offers send member := by
    rcases offers send member with old | new
    · have ruled : h.leader send.2.term ≠ none := by
        rw [(committing.matching.sent send old).1]
        nofun
      exact (committing.offers send old).grow grows ruled
    · exact new
  tracks := tracks
  acks p T log acks := by
    rcases fresh p T log acks with old | ⟨reached, holds⟩
    · rcases committing.acks p T log old with ⟨reached, holds | lost⟩
      · exact ⟨reached.trans (grows.clock p), kept p T log old holds⟩
      · refine ⟨reached.trans (grows.clock p), .inr ?_⟩
        exact (grows.extension.lost lost).mono (Nat.succ_le_succ (grows.clock p))
    · exact ⟨reached, .inl holds⟩
  ballots vote member vacant := by
    rcases ballots vote member vacant with old | new
    · have before : h.leader vote.2.term = none := by
        by_contra ruled
        exact grows.extension.ruled ruled vacant
      have reached := (committing.matching.voting.held vote.1 _ _ (.inl ⟨_, old, rfl, rfl⟩)).1.le
      exact (committing.ballots vote old before).grow grows reached
    · exact new
  elections U ruled := by
    rcases elections U ruled with old | new
    · exact (committing.elections U old).mono grows.extension old grows.clock grows.new
    · exact new
  settled := settled

end Growth

section Unmoved

variable {h : Reigns (Fin n) LogEntry} {w after : World n}

theorem Canvass.keep (canvass : Canvass w) (asked : after.asked = w.asked)
    (granted : after.granted ⊆ after.asked) (clock : ∀ p, w.clock p ≤ after.clock p)
    (candidates : ∀ p, (after.nodes p).state = .candidate → (w.nodes p).state = .candidate ∧
      (after.nodes p).term = (w.nodes p).term ∧ (after.nodes p).log = (w.nodes p).log) :
    Canvass after where
  recent ask member := by
    rw [asked] at member
    exact (canvass.recent ask member).trans (clock _)
  announced ask member candidate current := by
    rw [asked] at member
    rcases candidates _ candidate with ⟨before, term, log⟩
    rw [log]
    exact canvass.announced ask member before (current.trans term)
  granted := granted

theorem Committing.keep (committing : Committing h w) (matching : Matching h after)
    (keeps : ∀ p, (w.nodes p).KeepsLog (after.nodes p)) (canvass : Canvass after)
    (sent : after.sent = w.sent) (acked : after.acked = w.acked)
    (tracks : ∀ p, (after.nodes p).state = .leader → ∀ peer, Tracks w (after.nodes p) peer)
    (ballots : ∀ vote ∈ after.granted, h.leader vote.2.term = none →
      vote ∈ w.granted ∨ Cast h w vote.1 vote.2)
    (settled : ∀ p, Settled h w (after.nodes p)) : Committing h after := by
  have grows : w.Grows h h after := .of_acked acked fun p => (keeps p).term
  have same : ∀ p T log, after.Acked h p T log → w.Acked h p T log := by
    intro p T log acks
    rwa [World.Acked, acked] at acks
  apply committing.advance grows
  case matching => exact matching
  case canvass => exact canvass
  case acked =>
    rw [sent, acked]
    exact committing.acked
  case offers => exact fun send member => .inl (sent ▸ member)
  case tracks =>
    intro p leader peer
    have tracked := tracks p leader peer
    rwa [Tracks, ← acked] at tracked
  case kept =>
    intro p T log _ holds
    rw [(keeps p).log]
    exact .inl holds
  case fresh => exact fun p T log acks => .inl (same p T log acks)
  case ballots =>
    intro vote member vacant
    rcases ballots vote member vacant with old | cast
    · exact .inl old
    · rcases cast with ⟨log, grounded, newer, kept⟩
      exact .inr ⟨log, grounded, newer, fun T held before acks =>
        kept T held before (same vote.1 T held acks)⟩
  case elections => exact fun U ruled => .inl ruled
  case settled => exact fun p => (settled p).grow grows

theorem Committing.keep_quiet (committing : Committing h w) (matching : Matching h after)
    (quiets : ∀ p, (w.nodes p).Quiet (after.nodes p)) (canvass : Canvass after)
    (sent : after.sent = w.sent) (acked : after.acked = w.acked)
    (ballots : ∀ vote ∈ after.granted, h.leader vote.2.term = none →
      vote ∈ w.granted ∨ Cast h w vote.1 vote.2) : Committing h after := by
  apply committing.keep matching
  case keeps => exact fun q => (quiets q).toKeepsLog
  case settled => exact fun q => (committing.settled q).unmoved (quiets q).toUnmoved
  case canvass => exact canvass
  case sent => exact sent
  case acked => exact acked
  case tracks =>
    intro p leader peer
    rcases (quiets p).leads leader with ⟨before, term⟩
    exact (committing.tracks p before peer).quiet (quiets p) term Set.Subset.rfl
  case ballots => exact ballots

variable {args : RequestVoteArgs n} {r : Node n} {p : Fin n}

theorem quiet_setNode (quiet : (w.nodes p).Quiet r) (q : Fin n) :
    (w.nodes q).Quiet ((w.setNode p r).nodes q) :=
  w.nodes_setNode_rel Node.Quiet Node.Quiet.refl quiet q

theorem candidates_setNode
    (own : r.state = .candidate → (w.nodes p).state = .candidate ∧ r.term = (w.nodes p).term ∧
      r.log = (w.nodes p).log) (q : Fin n)
    (candidate : ((w.setNode p r).nodes q).state = .candidate) :
    (w.nodes q).state = .candidate ∧ ((w.setNode p r).nodes q).term = (w.nodes q).term ∧
      ((w.setNode p r).nodes q).log = (w.nodes q).log :=
  w.nodes_setNode_rel (fun before after => after.state = .candidate →
    before.state = .candidate ∧ after.term = before.term ∧ after.log = before.log)
    (fun _ stands => ⟨stands, rfl, rfl⟩) own q candidate

theorem candidate_of_steady {next : Node n} (steady : r.Steady next) (log : next.log = r.log)
    (candidate : next.state = .candidate) :
    r.state = .candidate ∧ next.term = r.term ∧ next.log = r.log := by
  rcases steady.stands (by rw [candidate]; decide) with ⟨state, ballot, _⟩
  exact ⟨state ▸ candidate, congrArg Prod.fst ballot, log⟩

theorem Committing.silent (committing : Committing h w)
    (matching : Matching h (w.setNode p r)) (quiet : (w.nodes p).Quiet r)
    (candidate : r.state = .candidate → (w.nodes p).state = .candidate ∧ r.term = (w.nodes p).term ∧
      r.log = (w.nodes p).log) : Committing h (w.setNode p r) := by
  have quiets := quiet_setNode quiet
  apply committing.keep_quiet matching quiets
  case canvass =>
    exact committing.canvass.keep rfl committing.canvass.granted (fun q => (quiets q).term)
      (candidates_setNode candidate)
  case sent => rfl
  case acked => rfl
  case ballots => exact fun vote member _ => .inl member

theorem startElection_asks {me : Fin n} (base : r.lastIncludedIndex = 0) (indexed : Indexed r.log)
    (asks : (r.startElection me).2 = some args) :
    args.candidateID = me ∧ args.term = (r.startElection me).1.term ∧ Announces args r.log := by
  rw [startElection] at asks ⊢
  split_ifs at asks ⊢ with leader
  obtain rfl := Option.some.inj asks
  refine ⟨rfl, rfl, getLastLogIndex_eq base indexed, ?_⟩
  change r.lastLogTerm = _
  rw [lastLogTerm]
  cases r.log.getLast? with
  | none => exact if_neg (by rw [base]; exact lt_irrefl 0)
  | some entry => rfl

theorem startElection_candidate {me : Fin n}
    (candidate : (r.startElection me).1.state = .candidate) : r.term < (r.startElection me).1.term := by
  rw [startElection] at candidate ⊢
  split_ifs at candidate ⊢ with leader
  · rw [leader] at candidate
    cases candidate
  · exact Nat.lt_succ_self _

theorem Committing.timeout (committing : Committing h w) (p : Fin n)
    (matching : Matching h (w.next (.timeout p))) : Committing h (w.next (.timeout p)) := by
  have quiets : ∀ q, (w.nodes q).Quiet ((w.next (.timeout p)).nodes q) :=
    quiet_setNode (quiet_startElection _ p)
  have here : (w.next (.timeout p)).nodes p = ((w.nodes p).startElection p).1 :=
    w.nodes_setNode_self _ _
  have asks : ∀ args, ((w.nodes p).startElection p).2 = some args → args.candidateID = p ∧
      args.term = ((w.nodes p).startElection p).1.term ∧ Announces args (w.nodes p).log := fun args =>
    startElection_asks (committing.matching.base p)
      (committing.matching.indexed_of_grounded (committing.matching.grounded p))
  apply committing.keep_quiet matching quiets
  case canvass =>
    constructor
    case recent =>
      rintro ask (old | ⟨_, out⟩)
      · exact (committing.canvass.recent ask old).trans (quiets _).term
      · rcases asks ask.2 out with ⟨candidate, term, _⟩
        rw [candidate, here, term]
    case announced =>
      rintro ask (old | ⟨_, out⟩) candidate current
      · rw [(quiets _).log]
        by_cases own : ask.2.candidateID = p
        · -- An earlier request of this node is of an earlier term.
          rw [own, here] at candidate current
          have before := committing.canvass.recent ask old
          rw [own, current] at before
          exact absurd (startElection_candidate candidate) (not_lt.mpr before)
        · have other : (w.next (.timeout p)).nodes ask.2.candidateID = w.nodes ask.2.candidateID :=
            w.nodes_setNode_of_ne own _
          rw [other] at candidate current
          exact committing.canvass.announced ask old candidate current
      · rcases asks ask.2 out with ⟨own, _, announces⟩
        rw [(quiets _).log, own]
        exact announces
    case granted => exact committing.canvass.granted.trans Set.subset_union_left
  case sent => rfl
  case acked => rfl
  case ballots => exact fun vote member _ => .inl member

theorem newer_of_isLogUpToDate (indexed : Indexed r.log)
    (upToDate : r.isLogUpToDate args.lastLogIndex args.lastLogTerm) : Newer args r.log := by
  intro front last split
  have place := indexed front last (split ▸ List.prefix_rfl)
  rw [isLogUpToDate, split] at upToDate
  simp [place] at upToDate
  exact upToDate.imp_right fun same => ⟨same.1.symm, same.2⟩

theorem requestVote_candidate (candidate : (r.requestVote args).1.state = .candidate) :
    r.state = .candidate ∧ (r.requestVote args).1.term = r.term ∧
      (r.requestVote args).1.log = r.log := by
  have log := (r.quiet_requestVote args).log
  rcases r.requestVote_cases args with ⟨_, steady⟩ | ⟨_, _, _, _, after⟩
  · exact candidate_of_steady steady log candidate
  · rw [after] at candidate ⊢
    have stands : (r.observe args.term).state = .candidate := candidate
    have same := candidate_of_steady (r.steady_observe args.term) (r.quiet_observe args.term).log stands
    exact same

theorem Committing.vote (committing : Committing h w) (p : Fin n) (args : RequestVoteArgs n)
    (asked : (p, args) ∈ w.asked) (matching : Matching h (w.next (.vote p args))) :
    Committing h (w.next (.vote p args)) := by
  have quiets : ∀ q, (w.nodes q).Quiet ((w.next (.vote p args)).nodes q) :=
    quiet_setNode (quiet_requestVote _ args)
  have indexed := committing.matching.indexed_of_grounded (committing.matching.grounded p)
  apply committing.keep_quiet matching quiets
  case canvass =>
    apply committing.canvass.keep
    case asked => rfl
    case granted =>
      rintro vote (old | ⟨rfl, _⟩)
      · exact committing.canvass.granted old
      · exact asked
    case clock => exact fun q => (quiets q).term
    case candidates => exact candidates_setNode requestVote_candidate
  case sent => rfl
  case acked => rfl
  case ballots =>
    rintro vote (old | ⟨rfl, given⟩) vacant
    · exact .inl old
    · right
      have observes := (w.nodes p).quiet_observe args.term
      rcases (w.nodes p).requestVote_cases args with ⟨refused, _⟩ | ⟨_, _, term, upToDate, _⟩
      · rw [refused] at given
        cases given
      · refine ⟨(w.nodes p).log, committing.matching.grounded p, ?_, fun T held before acks => ?_⟩
        · have newer := newer_of_isLogUpToDate (observes.log ▸ indexed) upToDate
          rwa [observes.log] at newer
        · apply (committing.acks p T held acks).2.imp_right
          exact fun lost => lost.before (observes.term.trans_eq term) vacant

end Unmoved

end KairosFlux.Raft
