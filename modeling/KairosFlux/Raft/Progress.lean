import KairosFlux.Raft.Commit

/-! The steps that move the logs and commit them: a candidate wins, a leader takes a command, sends
its log and hears of success, a follower takes the entries over. -/

namespace KairosFlux.Raft

open Lib List Option Node Reigns

variable {n : Nat} {h : Reigns (Fin n) LogEntry} {w : World n}

theorem Settled.commit {r : Node n} (settled : Settled h w r) (base : r.lastIncludedIndex = 0)
    (indexed : Indexed r.log) {commitIndex : Int} (start : -1 ≤ commitIndex)
    (inside : commitIndex < r.log.length)
    (safe : w.Safe h r.term (r.log.take (commitIndex + 1).toNat)) :
    Settled h w { r with commitIndex := commitIndex }.applyCommittedLogs := by
  rcases { r with commitIndex := commitIndex }.applyCommittedLogs_spec with
    ⟨last, entries, same, listed⟩
  rw [same]
  constructor
  case start => exact start
  case inside => exact inside
  case committed => exact safe
  case applied =>
    intro entry member
    rcases mem_append.mp member with old | new
    · exact settled.applied entry old
    · rcases listed entry new with ⟨index, _, upTo, found⟩
      have found : r.entryAt (r.relIndex index) = some entry := found
      rw [relIndex_eq base, entryAt] at found
      split_ifs at found with negative
      have short : (r.log.take index.toNat).length = index.toNat :=
        length_take_of_le (List.getElem?_eq_some_iff.mp found).1.le
      have inLog := prefix_of_getElem? (List.take_prefix index.toNat r.log) (by rwa [short])
      refine ⟨r.log.take index.toNat, (indexed _ entry inLog).symm, ?_⟩
      apply safe.beginning
      apply prefix_of_prefix_length_le inLog (List.take_prefix _ _)
      simp only at upTo
      simp only [length_append, length_take, length_singleton]
      omega

namespace Committing

variable {p : Fin n} {args : AppendEntriesArgs n} {log : List LogEntry}

section

variable (committing : Committing h w)
include committing

theorem ruled_of_acked {T : Nat} (acks : w.Acked h p T log) : h.leader T ≠ none := by
  rcases acks with ⟨_, leads | ⟨args, ack, rfl, _⟩⟩
  · rw [leads]
    exact some_ne_none p
  · rw [(committing.matching.sent _ (committing.acked ack)).1]
    nofun

/-- A step of one node, which acknowledges at most its own log anew, in the term it is in then. -/
theorem advance_node {later : Reigns (Fin n) LogEntry} {after : World n} {r : Node n} {T : Nat}
    (here : after.nodes p = r) (others : ∀ q, q ≠ p → after.nodes q = w.nodes q)
    (asked : after.asked = w.asked) (granted : after.granted = w.granted) (sent : after.sent = w.sent)
    (acked : w.acked ⊆ after.acked) (listed : after.acked ⊆ w.sent)
    (matching : Matching later after) (extension : h.Extends later) (stands : r.state ≠ .candidate)
    (onward : (w.nodes p).term ≤ T) (reached : T ≤ r.term)
    (new : ∀ q U log, after.Acked later q U log →
      w.Acked h q U log ∨ (q = p ∧ U = T ∧ log <+: r.log))
    (tracks : r.state = .leader → ∀ peer, Tracks after r peer)
    (kept : ∀ U log, w.Acked h p U log → log <+: (w.nodes p).log →
      log <+: r.log ∨ Lost later U (r.term + 1) log)
    (elections : w.Grows h later after → ∀ U, later.leader U ≠ none → h.leader U ≠ none ∨
      Elected LogEntry.term later (after.Acked later) after.clock U)
    (settled : w.Grows h later after → Settled later after r) : Committing later after := by
  have clock : ∀ q, w.clock q ≤ after.clock q := by
    intro q
    by_cases same : q = p
    · rw [same, World.clock, World.clock, here]
      exact onward.trans reached
    · exact (congrArg term (others q same)).ge
  have grows : w.Grows h later after := by
    constructor
    case extension => exact extension
    case clock => exact clock
    case acked =>
      intro q U log old
      have ruled := committing.ruled_of_acked old
      refine ⟨old.1.trans (extension.log U ruled), ?_⟩
      rw [extension.leader U ruled]
      exact old.2.imp_right fun ⟨args, ack, same⟩ => ⟨args, acked ack, same⟩
    case new =>
      intro q U log given
      rcases new q U log given with old | ⟨rfl, rfl, _⟩
      · exact .inl old
      · exact .inr onward
  apply committing.advance grows
  case matching => exact matching
  case canvass =>
    apply committing.canvass.keep asked
    case granted =>
      rw [asked, granted]
      exact committing.canvass.granted
    case clock => exact clock
    case candidates =>
      intro q candidate
      by_cases same : q = p
      · rw [same, here] at candidate
        exact absurd candidate stands
      · rw [others q same] at candidate ⊢
        exact ⟨candidate, rfl, rfl⟩
  case acked => exact sent ▸ listed
  case offers => exact fun send member => .inl (sent ▸ member)
  case tracks =>
    intro q leader peer
    by_cases same : q = p
    · rw [same, here] at leader ⊢
      exact tracks leader peer
    · rw [others q same] at leader ⊢
      exact (committing.tracks q leader peer).quiet (.refl _) rfl acked
  case kept =>
    intro q U log old known
    by_cases same : q = p
    · subst same
      rw [World.clock, here]
      exact kept U log old known
    · rw [others q same]
      exact .inl known
  case fresh =>
    intro q U log given
    rcases new q U log given with old | ⟨rfl, rfl, inside⟩
    · exact .inl old
    · rw [World.clock, here]
      exact .inr ⟨reached, inside⟩
  case ballots => exact fun vote member _ => .inl (granted ▸ member)
  case elections => exact elections grows
  case settled =>
    intro q
    by_cases same : q = p
    · rw [same, here]
      exact settled grows
    · rw [others q same]
      exact (committing.settled q).grow grows

/-- What a voter of the winner has acknowledged before is in the log it voted on, or lost. -/
theorem voted {voter : Fin n}
    (candidate : (w.nodes p).state = .candidate) (vacant : h.leader (w.nodes p).term = none)
    (vote : voter = p ∨ w.Votes voter p (w.nodes p).term) :
    (w.nodes p).term ≤ w.clock voter ∧ ∃ log, Grounded LogEntry.term h log ∧
      UpToDate LogEntry.term (w.nodes p).log log ∧ ∀ T held, T < (w.nodes p).term →
        w.Acked h voter T held → held <+: log ∨ Lost h T (w.nodes p).term held := by
  rcases vote with rfl | ⟨args, given, rfl, term⟩
  · refine ⟨le_rfl, (w.nodes voter).log, committing.matching.grounded voter, ?_, ?_⟩
    · exact fun front last split => ⟨front, last, split, .inr ⟨rfl, le_rfl⟩⟩
    · intro T held _ acks
      apply (committing.acks voter T held acks).2.imp_right
      exact fun lost => lost.before le_rfl vacant
  · have reached := (committing.matching.voting.held voter _ _ (.inl ⟨args, given, rfl, rfl⟩)).1.le
    have announces := committing.canvass.announced _ (committing.canvass.granted given) candidate term
    rcases committing.ballots _ given (term ▸ vacant) with ⟨log, grounded, newer, kept⟩
    rw [← term]
    exact ⟨reached, log, grounded, announces.upToDate newer, kept⟩

theorem win (candidate : (w.nodes p).state = .candidate)
    {group : Finset (Fin n)} (majority : Majority group)
    (votes : ∀ voter ∈ group, voter = p ∨ w.Votes voter p (w.nodes p).term) :
    Committing (h.crown (w.nodes p).term p (w.nodes p).log) (w.next (.win p)) := by
  have vacant := committing.matching.vacant candidate majority votes
  have extension := extends_crown vacant p (w.nodes p).log
  have clock : ∀ q, (w.setNode p (w.nodes p).becomeLeader).clock q = w.clock q :=
    w.nodes_setNode_rel (fun before after => after.term = before.term) (fun _ => rfl) rfl
  apply committing.advance_node (w.nodes_setNode_self p _) fun q apart => w.nodes_setNode_of_ne apart _
  case asked | granted | sent => rfl
  case acked => exact Set.Subset.rfl
  case listed => exact committing.acked
  case matching => exact committing.matching.win candidate majority votes
  case extension => exact extension
  case stands => exact (nomatch ·)
  case onward | reached => exact le_rfl
  case new =>
    rintro q T log ⟨inside, source⟩
    by_cases own : T = (w.nodes p).term
    · rw [own, log_crown] at inside
      rcases source with leads | ⟨args, ack, term, _⟩
      · rw [own, leader_crown] at leads
        exact .inr ⟨(some.inj leads).symm, own, inside⟩
      · have leads := (committing.matching.sent _ (committing.acked ack)).1
        rw [term, own, vacant] at leads
        cases leads
    · rw [log_crown_of_ne own] at inside
      rw [leader_crown_of_ne own] at source
      exact .inl ⟨inside, source⟩
  case tracks =>
    intro _ peer
    have last := getLastLogIndex_eq (committing.matching.base p)
      (committing.matching.indexed_of_grounded (committing.matching.grounded p))
    have next : (w.nodes p).becomeLeader.nextIndex peer = (w.nodes p).log.length := by
      exact (congrArg (· + 1) last).trans (sub_add_cancel _ _)
    refine ⟨?_, next.le, .inl (committing.matching.base p).le⟩
    rw [next]
    exact Int.natCast_nonneg _
  case kept => exact fun T log _ holds => .inl holds
  case elections =>
    intro grows U ruled
    by_cases own : U = (w.nodes p).term
    · right
      refine ⟨group, majority, fun voter member => ?_⟩
      rcases committing.voted candidate vacant (votes voter member) with
        ⟨reached, log, grounded, upToDate, kept⟩
      rw [own, base_crown, clock voter]
      refine ⟨reached, log, extension.grounded grounded, upToDate, fun T held before new => ?_⟩
      rcases grows.new voter T held new with old | current
      · exact (kept T held before old).imp_right extension.lost
      · exact absurd (reached.trans current) (not_le.mpr before)
    · left
      rwa [leader_crown_of_ne own] at ruled
  case settled =>
    intro grows
    have settled := (committing.settled p).grow grows
    exact ⟨settled.start, settled.inside, settled.committed, settled.applied⟩

theorem sent_le (ack : (p, args) ∈ w.acked) :
    args.prevLogIndex + 1 + args.entries.length ≤ (h.log args.term).length := by
  have offers : Offers h w args := committing.offers _ (committing.acked ack)
  rcases offers with ⟨front, ⟨length, inside, _⟩, _⟩
  have within := inside.length_le
  rw [length_append] at within
  omega

theorem settled_appendEntry (command : Bytes)
    (leader : (w.nodes p).state = .leader) {later : Reigns (Fin n) LogEntry} {after : World n}
    (grows : w.Grows h later after) (matching : Matching later after)
    (here : after.nodes p = ((w.nodes p).appendEntry command).1) :
    Settled later after (after.nodes p) := by
  have settled := (committing.settled p).grow grows
  have inside := settled.inside
  have added : Settled later after ((w.nodes p).addEntry ((w.nodes p).newEntry command)) := by
    constructor
    case start => exact settled.start
    case inside =>
      change (w.nodes p).commitIndex < ((w.nodes p).log ++ [_]).length
      rw [length_append, length_singleton]
      omega
    case committed =>
      change after.Safe later (w.nodes p).term
        (((w.nodes p).log ++ [(w.nodes p).newEntry command]).take ((w.nodes p).commitIndex + 1).toNat)
      rw [take_append_of_le_length (by omega)]
      exact settled.committed
    case applied => exact settled.applied
  have grown := keepsLog_appendEntry leader command
  have state := (appendEntry_state (w.nodes p) command).trans leader
  have base := grown.base.symm.trans (here ▸ matching.base p)
  have indexed : Indexed ((w.nodes p).log ++ [(w.nodes p).newEntry command]) := by
    have last := matching.indexed_of_grounded (matching.grounded p)
    rwa [here, grown.log] at last
  have leads := matching.voting.leads p (here ▸ state)
  have log := matching.leads p (here ▸ state)
  rw [here, (grown.leads state).2] at leads log
  rw [grown.log] at log
  rw [here, appendEntry, if_pos leader]
  split_ifs with single
  · have place : ((w.nodes p).newEntry command).index = (w.nodes p).log.length :=
      indexed _ _ prefix_rfl
    apply added.commit base indexed
    case start =>
      omega
    case inside =>
      change _ < (((w.nodes p).log ++ [(w.nodes p).newEntry command]).length : Int)
      rw [length_append, place]
      simp
    case safe =>
      apply World.Safe.beginning _ (List.take_prefix _ _)
      refine .inr ⟨(w.nodes p).term, _, le_rfl, ⟨?_, log ▸ prefix_rfl, ?_, {p}, ?_, ?_⟩, prefix_rfl⟩
      · rw [show later.leader (w.nodes p).term = some p from leads]
        exact some_ne_none p
      · exact ⟨(w.nodes p).log, (w.nodes p).newEntry command, rfl, rfl⟩
      · rw [Majority, Fintype.card_fin, Finset.card_singleton]
        omega
      · intro q member
        rw [Finset.mem_singleton.mp member]
        exact ⟨log ▸ prefix_rfl, .inl leads⟩
  · exact added

theorem client (p : Fin n) (command : Bytes) (leader : (w.nodes p).state = .leader) :
    Committing (h.add (w.nodes p).term ((w.nodes p).newEntry command))
      (w.next (.client p command)) := by
  have matching := committing.matching.client p command leader
  have leads := committing.matching.voting.leads p leader
  have own : (w.nodes p).log = h.log (w.nodes p).term := committing.matching.leads p leader
  have grown := keepsLog_appendEntry leader command
  have term : ((w.nodes p).appendEntry command).1.term = (w.nodes p).term :=
    (grown.leads ((appendEntry_state _ command).trans leader)).2
  have longer : (w.nodes p).log <+: ((w.nodes p).appendEntry command).1.log := by
    rw [grown.log]
    exact prefix_append _ _
  apply committing.advance_node (w.nodes_setNode_self p _) fun q apart => w.nodes_setNode_of_ne apart _
  case asked | granted | sent => rfl
  case acked => exact Set.Subset.rfl
  case listed => exact committing.acked
  case matching => exact matching
  case extension => exact h.extends_add (w.nodes p).term ((w.nodes p).newEntry command)
  case stands => simp [appendEntry_state, leader]
  case onward => exact le_rfl
  case reached => exact term.ge
  case new =>
    rintro q T log ⟨inside, source⟩
    by_cases current : T = (w.nodes p).term
    · rw [current, log_add] at inside
      rcases source with leadsQ | ⟨args, ack, same, length⟩
      · right
        have leadsT : h.leader T = some q := leadsQ
        rw [current, leads] at leadsT
        refine ⟨(some.inj leadsT).symm, current, ?_⟩
        rw [← own] at inside
        rw [grown.log]
        exact inside
      · left
        refine ⟨?_, .inr ⟨args, ack, same, length⟩⟩
        rw [current]
        apply prefix_of_prefix_length_le inside (prefix_append _ _)
        have within := committing.sent_le ack
        rw [same, current] at within
        omega
    · rw [log_add_of_ne current] at inside
      exact .inl ⟨inside, source⟩
  case tracks =>
    intro _ peer
    rcases committing.tracks p leader peer with ⟨start, inside, matched⟩
    rcases appendEntry_progress (w.nodes p) command with ⟨nextIndex, matchIndex⟩
    rw [Tracks, term, nextIndex, matchIndex]
    exact ⟨start, inside.trans (Int.ofNat_le.mpr longer.length_le), matched⟩
  case kept => exact fun T log _ holds => .inl (holds.trans longer)
  case elections => exact fun _ U ruled => .inl ruled
  case settled =>
    intro grows
    have here := w.nodes_setNode_self p ((w.nodes p).appendEntry command).1
    have settled := committing.settled_appendEntry command leader grows matching here
    rwa [here] at settled

theorem offers_replicateTo {peer : Fin n} (leader : (w.nodes p).state = .leader)
    (sent : (w.nodes p).replicateTo p peer = .entries args) : Offers h w args := by
  rcases committing.tracks p leader peer with ⟨start, inside, _⟩
  have base := committing.matching.base p
  have carries := carries_replicateTo base (committing.matching.leads p leader) sent start inside
  have settled := committing.settled p
  have whole : (w.nodes p).log.take ((w.nodes p).nextIndex peer).toNat ++ args.entries =
      (w.nodes p).log := by
    rw [replicateTo_entries _ sent, relIndex_eq base]
    simp only [not_lt.mpr start, if_false, take_append_drop]
  refine ⟨_, carries, ?_⟩
  rw [whole, replicateTo_entries _ sent]
  exact ⟨settled.inside, settled.committed⟩

theorem replicate (leader : (w.nodes p).state = .leader) :
    Committing h (w.next (.replicate p)) := by
  have grows : w.Grows h h (w.next (.replicate p)) := .of_acked rfl fun _ => le_rfl
  apply committing.advance grows
  case matching => exact committing.matching.replicate p leader
  case canvass =>
    exact ⟨committing.canvass.recent, committing.canvass.announced, committing.canvass.granted⟩
  case acked => exact committing.acked.trans Set.subset_union_left
  case offers =>
    rintro ⟨peer, args⟩ (old | ⟨_, out⟩)
    · exact .inl old
    · right
      have out : (w.nodes p).replicateTo p peer = .entries args := out
      have offers := committing.offers_replicateTo leader out
      have ruled : h.leader args.term ≠ none := by
        rw [replicateTo_entries _ out, committing.matching.voting.leads p leader]
        exact some_ne_none p
      exact offers.grow grows ruled
  case tracks => exact committing.tracks
  case kept => exact fun p T log _ holds => .inl holds
  case fresh => exact fun p T log acks => .inl acks
  case ballots => exact fun vote member _ => .inl member
  case elections => exact fun U ruled => .inl ruled
  case settled => exact fun q => (committing.settled q).grow grows

theorem safe_le_log {T V : Nat}
    (safe : w.Safe h T log) (onward : T ≤ V) (ruled : h.leader V ≠ none) : log <+: h.log V := by
  rcases safe with rfl | ⟨U, whole, before, committed, within⟩
  · exact nil_prefix
  · exact within.trans (committing.matching.sound.committed_le_log committing.elections committed V
      (before.trans onward) ruled)

theorem committed_kept {V : Nat} {taken : List LogEntry}
    (onward : (w.nodes p).term ≤ V) (ruled : h.leader V ≠ none) (offered : taken <+: h.log V)
    (takes : taken <+: (w.nodes p).log ∧ log = (w.nodes p).log ∨
      ¬ taken <+: (w.nodes p).log ∧ log = taken) :
    (w.nodes p).log.take ((w.nodes p).commitIndex + 1).toNat <+: log := by
  rcases takes with ⟨_, rfl⟩ | ⟨new, rfl⟩
  · exact take_prefix _ _
  · have known := committing.safe_le_log (committing.settled p).committed onward ruled
    rcases prefix_or_prefix_of_prefix known offered with shorter | longer
    · exact shorter
    · exact absurd (longer.trans (List.take_prefix _ _)) new

end

/-- The commit index of a follower, which never runs ahead of what the request has brought. -/
theorem settled_advanceCommit {r : Node n} {taken : List LogEntry} {leaderCommit : Int}
    (settled : Settled h w r) (base : r.lastIncludedIndex = 0) (indexed : Indexed r.log)
    (holds : taken <+: r.log) (inside : leaderCommit < taken.length)
    (safe : w.Safe h r.term (taken.take (leaderCommit + 1).toNat)) :
    Settled h w (r.advanceCommit leaderCommit) := by
  rw [advanceCommit]
  split_ifs with ahead
  · have start := settled.start
    have within := holds.length_le
    have last : r.log.getLast?.elim r.lastIncludedIndex LogEntry.index = r.log.length - 1 := by
      rcases r.log.eq_nil_or_concat' with empty | ⟨front, last, split⟩
      · rw [empty, length_nil] at within
        omega
      · rw [split] at indexed ⊢
        simp [indexed front last prefix_rfl]
    apply settled.commit base indexed
    case start => omega
    case inside => omega
    case safe =>
      apply safe.beginning
      apply prefix_of_prefix_length_le (List.take_prefix _ _) ((List.take_prefix _ _).trans holds)
      simp only [length_take]
      omega
  · exact settled

/-- A follower takes entries over and follows the commit index of the leader. What it has committed
stays, since every leader has it. -/
theorem settled_append (committing : Committing h w)
    (sent : (p, args) ∈ w.sent) (onward : (w.nodes p).term ≤ args.term)
    (accepted : (w.nodes p).prevMatches args) :
    Settled h w
      (((w.nodes p).follow args.term).storeEntries args.entries |>.advanceCommit args.leaderCommit) := by
  have offers : Offers h w args := committing.offers _ sent
  rcases offers with ⟨front, carries, inside, safe⟩
  have ruled : h.leader args.term ≠ none := by
    rw [(committing.matching.sent _ sent).1]
    nofun
  have settled := committing.settled p
  rcases (w.nodes p).follow_storeEntries onward args.entries with ⟨wal, vote, stored⟩
  rw [stored]
  generalize merged : (mergeEntries _ _ _).1 = log
  have takes := committing.matching.takes ruled carries accepted merged.symm
  have kept := committing.committed_kept onward ruled carries.2.1 takes
  have holds : front ++ args.entries <+: log := by
    rcases takes with ⟨known, same⟩ | ⟨_, same⟩
    · rw [same]
      exact known
    · rw [same]
  have indexed : Indexed log := by
    rcases takes with ⟨_, same⟩ | ⟨_, same⟩
    · rw [same]
      exact committing.matching.indexed_of_grounded (committing.matching.grounded p)
    · rw [same]
      exact (committing.matching.indexed _ ruled).beginning carries.2.1
  have start := settled.start
  have length := settled.inside
  have short := kept.length_le
  rw [length_take] at short
  apply settled_advanceCommit
  case base => exact committing.matching.base p
  case indexed => exact indexed
  case holds => exact holds
  case inside => exact inside
  case safe => exact safe
  case settled =>
    constructor
    case start => exact start
    case inside =>
      simp only
      omega
    case committed =>
      apply (settled.committed.mono onward).beginning
      apply prefix_of_prefix_length_le (List.take_prefix _ _) kept
      simp only [length_take]
      omega
    case applied =>
      intro entry member
      rcases settled.applied entry member with ⟨before, place, safe⟩
      exact ⟨before, place, safe.mono onward⟩

theorem append (committing : Committing h w) (p : Fin n) (args : AppendEntriesArgs n)
    (sent : (p, args) ∈ w.sent) : Committing h (w.next (.append p args)) := by
  have matching := committing.matching.append p args sent
  have steady := (w.nodes p).steady_appendEntries args
  rcases (w.nodes p).appendEntries_cases args with ⟨refused, quiet⟩ | ⟨success, onward, accepted, after⟩
  · have quiets : ∀ q, (w.nodes q).Quiet ((w.next (.append p args)).nodes q) := quiet_setNode quiet
    apply committing.keep_quiet matching quiets
    case canvass =>
      exact committing.canvass.keep rfl committing.canvass.granted (fun q => (quiets q).term)
        (candidates_setNode (candidate_of_steady steady quiet.log))
    case sent => rfl
    case acked =>
      apply Set.union_eq_self_of_subset_right
      rintro _ ⟨_, success⟩
      rw [refused] at success
      cases success
    case ballots => exact fun vote member _ => .inl member
  · have offers : Offers h w args := committing.offers _ sent
    rcases offers with ⟨front, carries, _, _⟩
    have ruled : h.leader args.term ≠ none := by
      rw [(committing.matching.sent _ sent).1]
      nofun
    rcases (w.nodes p).follow_storeEntries onward args.entries with ⟨wal, vote, stored⟩
    have advances := keepsLog_advanceCommit
      ((w.nodes p).follow args.term |>.storeEntries args.entries) args.leaderCommit
    rw [← after, stored] at advances
    have takes := committing.matching.takes ruled carries accepted advances.log
    have holds : front ++ args.entries <+: ((w.nodes p).appendEntries args).1.log := by
      rcases takes with ⟨known, same⟩ | ⟨_, same⟩
      · rw [same]
        exact known
      · rw [same]
    apply committing.advance_node
    case here => exact w.nodes_setNode_self p _
    case others => exact fun q apart => w.nodes_setNode_of_ne apart _
    case asked | granted | sent => rfl
    case acked => exact Set.subset_union_left
    case listed =>
      rintro ack (old | ⟨rfl, _⟩)
      · exact committing.acked old
      · exact sent
    case matching => exact matching
    case extension => exact .refl h
    case stands => simp [after, advanceCommit_state, stored]
    case onward => exact onward
    case reached => exact advances.term
    case new =>
      -- The new acknowledgement is for the log up to the end of the entries.
      rintro q T log ⟨inside, leads | ⟨ack, old | ⟨same, _⟩, rfl, length⟩⟩
      · exact .inl ⟨inside, .inl leads⟩
      · exact .inl ⟨inside, .inr ⟨ack, old, rfl, length⟩⟩
      · obtain ⟨rfl, rfl⟩ := Prod.mk.inj same
        refine .inr ⟨rfl, rfl, (prefix_of_prefix_length_le inside carries.2.1 ?_).trans holds⟩
        have front := carries.1
        rw [length_append]
        omega
    case tracks => exact fun leader => nomatch (advances.leads leader).1
    case kept =>
      intro T log old known
      have reached := (committing.acks p T log old).1.trans onward
      apply (kept_or_lost committing.matching.sound known old.1 reached ruled carries.2.1
        takes).imp_right
      exact fun lost => lost.mono (Nat.succ_le_succ advances.term)
    case elections => exact fun _ U ruled => .inl ruled
    case settled => exact fun grows => after ▸ (committing.settled_append sent onward accepted).grow grows

end Committing

end KairosFlux.Raft
