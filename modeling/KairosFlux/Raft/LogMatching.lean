import KairosFlux.Raft.Election
import KairosFlux.Raft.Replication

/-! Log matching. The record of a run is the log of the leader of every term; each log is up to each
of its entries the log of the leader who made the entry, and so are the entries under way. -/

namespace KairosFlux.Raft

open Lib List Node Reigns

variable {n : Nat}

/-- No snapshots and no restarts. -/
def Event.Plain : Event n → Prop
  | .takeSnapshot _ _ _ => False
  | .install _ _ _ => False
  | .snapshotReply _ _ _ => False
  | .restart _ => False
  | _ => True

def Input.Plain : Input n → Prop
  | .takeSnapshot _ _ _ => False
  | .deliverSnapshot _ _ => False
  | .returnSnapshot _ _ => False
  | .failSnapshot _ => False
  | .restart _ => False
  | _ => True

theorem Node.Carries.extend {h later : Reigns (Fin n) LogEntry} {args : AppendEntriesArgs n}
    {front : List LogEntry} (carries : Carries h args front) (extension : h.Extends later)
    (ruled : h.leader args.term ≠ none) : Carries later args front :=
  ⟨carries.1, carries.2.1.trans (extension.log _ ruled), carries.2.2⟩

structure Matching (h : Reigns (Fin n) LogEntry) (w : World n) : Prop where
  voting : Voting (fun p T => h.leader T = some p) w
  sound : h.Sound LogEntry.term
  indexed : ∀ T, h.leader T ≠ none → Indexed (h.log T)
  grounded : ∀ p, Grounded LogEntry.term h (w.nodes p).log
  terms : ∀ p, ∀ entry ∈ (w.nodes p).log, entry.term ≤ (w.nodes p).term
  base : ∀ p, (w.nodes p).lastIncludedIndex = 0
  leads : ∀ p, (w.nodes p).state = .leader → (w.nodes p).log = h.log (w.nodes p).term
  sent : ∀ send ∈ w.sent, h.leader send.2.term = some send.2.leaderID ∧
    send.1 ≠ send.2.leaderID ∧ (send.2.entries ≠ [] → ∃ front, Node.Carries h send.2 front)

namespace Matching

variable {h later : Reigns (Fin n) LogEntry} {w : World n}

/-- Logs of leaders are numbered by position, and so is every log that is made of them. -/
theorem indexed_of_grounded (matching : Matching h w) {log : List LogEntry}
    (grounded : Grounded LogEntry.term h log) : Indexed log := by
  intro front entry inside
  rcases grounded front entry inside with ⟨ruled, upTo⟩
  exact matching.indexed _ ruled front entry upTo

theorem keep (matching : Matching h w) {after : World n}
    (voting : Voting (fun p T => h.leader T = some p) after)
    (keeps : ∀ p, (w.nodes p).KeepsLog (after.nodes p)) (sent : after.sent = w.sent) :
    Matching h after where
  __ := matching
  voting := voting
  grounded p := by
    rw [(keeps p).log]
    exact matching.grounded p
  terms p := by
    rw [(keeps p).log]
    exact fun entry member => (matching.terms p entry member).trans (keeps p).term
  base p := (keeps p).base.trans (matching.base p)
  leads p leader := by
    rcases (keeps p).leads leader with ⟨before, same⟩
    rw [(keeps p).log, same]
    exact matching.leads p before
  sent := sent ▸ matching.sent

theorem keeps_setNode {p : Fin n} {r : Node n} (keeps : (w.nodes p).KeepsLog r) (q : Fin n) :
    (w.nodes q).KeepsLog ((w.setNode p r).nodes q) :=
  w.nodes_setNode_rel Node.KeepsLog (fun r => (Node.Quiet.refl r).toKeepsLog) keeps q

section

variable (matching : Matching h w)
include matching

theorem sent_extend (extension : h.Extends later) :
    ∀ send ∈ w.sent, later.leader send.2.term = some send.2.leaderID ∧ send.1 ≠ send.2.leaderID ∧
      (send.2.entries ≠ [] → ∃ front, Node.Carries later send.2 front) := by
  intro send member
  rcases matching.sent send member with ⟨leader, apart, carried⟩
  have ruled : h.leader send.2.term ≠ none := by
    rw [leader]
    nofun
  refine ⟨(extension.leader _ ruled).trans leader, apart, fun entries => ?_⟩
  rcases carried entries with ⟨front, carries⟩
  exact ⟨front, carries.extend extension ruled⟩

section

variable {p : Fin n} (candidate : (w.nodes p).state = .candidate) {group : Finset (Fin n)}
  (majority : Majority group) (votes : ∀ voter ∈ group, voter = p ∨ w.Votes voter p (w.nodes p).term)
include candidate majority votes

/-- Nobody has led the term of a candidate who wins. -/
theorem vacant : h.leader (w.nodes p).term = none := by
  by_contra ruled
  rcases Option.ne_none_iff_exists'.mp ruled with ⟨q, leads⟩
  have won := matching.voting.win p candidate majority votes
  have same : q = p := won.leader_unique (.inl leads) (.inr ⟨rfl, rfl⟩)
  exact matching.voting.fresh p candidate (same ▸ leads)

theorem win : Matching (h.crown (w.nodes p).term p (w.nodes p).log) (w.next (.win p)) := by
  have vacant := matching.vacant candidate majority votes
  have extension := extends_crown vacant p (w.nodes p).log
  have logs : ∀ q, ((w.next (.win p)).nodes q).log = (w.nodes q).log ∧
      ((w.next (.win p)).nodes q).term = (w.nodes q).term ∧
      ((w.next (.win p)).nodes q).lastIncludedIndex = (w.nodes q).lastIncludedIndex := by
    exact w.nodes_setNode_rel (fun before after => after.log = before.log ∧ after.term = before.term ∧
      after.lastIncludedIndex = before.lastIncludedIndex) (fun _ => ⟨rfl, rfl, rfl⟩) ⟨rfl, rfl, rfl⟩
  constructor
  case voting =>
    have led : (fun q T => (h.crown (w.nodes p).term p (w.nodes p).log).leader T = some q) =
        fun q T => h.leader T = some q ∨ (q = p ∧ T = (w.nodes p).term) := by
      funext q T
      by_cases here : T = (w.nodes p).term
      · rw [here, leader_crown, vacant]
        simp [eq_comm]
      · rw [leader_crown_of_ne here]
        simp [here]
    rw [led]
    exact matching.voting.win p candidate majority votes
  case sound =>
    exact matching.sound.crown vacant p (matching.grounded p) (matching.terms p)
  case indexed =>
    intro T
    by_cases here : T = (w.nodes p).term
    · rw [here, log_crown]
      exact fun _ => matching.indexed_of_grounded (matching.grounded p)
    · rw [leader_crown_of_ne here, log_crown_of_ne here]
      exact matching.indexed T
  case grounded =>
    intro q
    rw [(logs q).1]
    exact extension.grounded (matching.grounded q)
  case terms =>
    intro q
    rw [(logs q).1, (logs q).2.1]
    exact matching.terms q
  case base => exact fun q => (logs q).2.2.trans (matching.base q)
  case leads =>
    intro q leader
    rw [(logs q).1, (logs q).2.1]
    by_cases here : q = p
    · rw [here, log_crown]
    · rw [World.next, w.nodes_setNode_of_ne here] at leader
      have leads := matching.voting.leads q leader
      have apart : (w.nodes q).term ≠ (w.nodes p).term := by
        intro same
        rw [same, vacant] at leads
        cases leads
      rw [log_crown_of_ne apart]
      exact matching.leads q leader
  case sent => exact matching.sent_extend extension

end

theorem client (p : Fin n) (command : Bytes) (leader : (w.nodes p).state = .leader) :
    Matching (h.add (w.nodes p).term ((w.nodes p).newEntry command)) (w.next (.client p command)) := by
  have extension := h.extends_add (w.nodes p).term ((w.nodes p).newEntry command)
  have leads := matching.voting.leads p leader
  have ruled : h.leader (w.nodes p).term ≠ none := by
    rw [leads]
    exact Option.some_ne_none p
  have own : (w.nodes p).log = h.log (w.nodes p).term := matching.leads p leader
  have grows := keepsLog_appendEntry leader command
  have log : ((w.nodes p).appendEntry command).1.log =
      (h.add (w.nodes p).term ((w.nodes p).newEntry command)).log (w.nodes p).term := by
    rw [log_add, ← own]
    exact grows.log
  have term : ((w.nodes p).appendEntry command).1.term = (w.nodes p).term :=
    (grows.leads ((appendEntry_state _ command).trans leader)).2
  have index : ((w.nodes p).newEntry command).index = (h.log (w.nodes p).term).length := by
    have last := getLastLogIndex_eq (matching.base p)
      (matching.indexed_of_grounded (matching.grounded p))
    rw [← own]
    exact (congrArg (· + 1) last).trans (sub_add_cancel _ _)
  have sound := matching.sound.add ruled (rfl : ((w.nodes p).newEntry command).term = _)
  constructor
  case voting => exact matching.voting.step trivial (by simp)
  case sound => exact sound
  case indexed =>
    intro T ruledT
    by_cases here : T = (w.nodes p).term
    · rw [here, log_add]
      exact (matching.indexed _ ruled).append index
    · rw [log_add_of_ne here]
      exact matching.indexed T ruledT
  case grounded =>
    intro q
    refine w.forall_setNode q ?_ fun q _ => extension.grounded (matching.grounded q)
    rw [log]
    exact sound.grounded _ ruled
  case terms =>
    intro q
    refine w.forall_setNode q ?_ fun q _ => matching.terms q
    rw [log, term]
    exact fun entry member => sound.term_le member
  case base =>
    exact fun q => w.forall_setNode q (grows.base.trans (matching.base p)) fun q _ => matching.base q
  case leads =>
    intro q
    refine w.forall_setNode q (fun _ => by rw [log, term]) fun q other leaderQ => ?_
    have apart : (w.nodes q).term ≠ (w.nodes p).term := by
      intro same
      have leadsQ := matching.voting.leads q leaderQ
      rw [same, leads] at leadsQ
      exact other (Option.some.inj leadsQ).symm
    rw [log_add_of_ne apart]
    exact matching.leads q leaderQ
  case sent => exact matching.sent_extend extension

/-- A follower that accepts a request has the log it was cut from up to its end: its own log if that
contains it, and else nothing more. -/
theorem takes {p : Fin n} {args : AppendEntriesArgs n}
    (ruled : h.leader args.term ≠ none) {front : List LogEntry} (carries : Node.Carries h args front)
    (accepted : (w.nodes p).prevMatches args) {log : List LogEntry}
    (merged : log = (mergeEntries (w.nodes p).relIndex args.entries
      ((w.nodes p).log, false, [])).1) :
    front ++ args.entries <+: (w.nodes p).log ∧ log = (w.nodes p).log ∨
      ¬ front ++ args.entries <+: (w.nodes p).log ∧ log = front ++ args.entries := by
  have offered := (matching.sound.grounded _ ruled).beginning carries.2.1
  have held := front_held (matching.base p) (matching.grounded p)
    (offered.beginning (prefix_append _ _)) carries accepted
  rw [merged]
  exact mergeEntries_log (relIndex_eq (matching.base p)) held
    (matching.indexed_of_grounded offered) (matching.grounded p) offered

theorem append (p : Fin n) (args : AppendEntriesArgs n)
    (sent : (p, args) ∈ w.sent) : Matching h (w.next (.append p args)) := by
  have voting : Voting _ (w.next (.append p args)) := matching.voting.step sent fun _ => nofun
  rcases matching.sent _ sent with ⟨leader, _, carried⟩
  have ruled : h.leader args.term ≠ none := by
    rw [leader]
    nofun
  rcases (w.nodes p).appendEntries_cases args with ⟨_, quiet⟩ | ⟨_, onward, accepted, after⟩
  · exact matching.keep voting (keeps_setNode quiet.toKeepsLog) rfl
  · rcases (w.nodes p).follow_storeEntries onward args.entries with ⟨wal, vote, stored⟩
    have advances := keepsLog_advanceCommit
      ((w.nodes p).follow args.term |>.storeEntries args.entries) args.leaderCommit
    rw [← after, stored] at advances
    have log : ((w.nodes p).appendEntries args).1.log = (w.nodes p).log ∨
        ((w.nodes p).appendEntries args).1.log <+: h.log args.term := by
      rw [advances.log]
      by_cases empty : args.entries = []
      · rw [empty]
        exact .inl rfl
      · rcases carried empty with ⟨front, carries⟩
        rcases matching.takes ruled carries accepted rfl with ⟨_, own⟩ | ⟨_, taken⟩
        · exact .inl own
        · exact .inr (taken ▸ carries.2.1)
    exact { matching with
      voting := voting
      grounded := by
        intro q
        refine w.forall_setNode q ?_ fun q _ => matching.grounded q
        rcases log with own | taken
        · rw [own]
          exact matching.grounded p
        · exact (matching.sound.grounded _ ruled).beginning taken
      terms := by
        intro q
        refine w.forall_setNode q (fun entry member => ?_) fun q _ => matching.terms q
        apply le_trans _ advances.term
        rcases log with own | taken
        · rw [own] at member
          exact (matching.terms p entry member).trans onward
        · exact matching.sound.term_le (taken.subset member)
      base q := w.forall_setNode q (advances.base.trans (matching.base p)) fun q _ => matching.base q
      leads q := w.forall_setNode q (fun leader => nomatch (advances.leads leader).1)
        fun q _ => matching.leads q }

theorem replicate (p : Fin n) (leader : (w.nodes p).state = .leader) :
    Matching h (w.next (.replicate p)) := by
  exact { matching with
    voting := matching.voting.of_eq rfl rfl matching.voting.asked
    sent := by
      rintro ⟨peer, args⟩ (old | ⟨apart, out⟩)
      · exact matching.sent _ old
      · have made := replicateTo_entries _ out
        refine ⟨?_, ?_, fun entries => ?_⟩
        · rw [made]
          exact matching.voting.leads p leader
        · rw [made]
          exact apart
        · -- Entries are sent only for a next index inside the log.
          rw [made, relIndex_eq (matching.base p)] at entries
          split_ifs at entries with negative
          · exact absurd rfl entries
          · have inside : ((w.nodes p).nextIndex peer).toNat < (w.nodes p).log.length := by
              rw [← not_le, ← drop_eq_nil_iff]
              exact entries
            exact ⟨_, carries_replicateTo (matching.base p) (matching.leads p leader) out
              (not_lt.mp negative) ((Int.toNat_lt (not_lt.mp negative)).mp inside).le⟩ }

end

theorem new : Matching empty (Cluster.new : Cluster n).world where
  voting := by
    have led : (fun (p : Fin n) T => (empty : Reigns (Fin n) LogEntry).leader T = some p) =
        fun _ _ => False := by
      funext p T
      simp [empty]
    rw [led]
    exact .new
  sound := .empty
  indexed _ ruled := absurd rfl ruled
  grounded _ := .nil
  terms _ _ member := nomatch member
  base _ := rfl
  leads _ leader := nomatch leader
  sent := by
    rintro _ ⟨call, member, _⟩
    cases member

theorem stay (matching : Matching h w) {event : Event n} (allowed : w.Allowed event)
    (noWin : ∀ p, event ≠ .win p) {p : Fin n} {r : Node n}
    (nodes : (w.next event).nodes = (w.setNode p r).nodes) (sent : (w.next event).sent = w.sent)
    (keeps : (w.nodes p).KeepsLog r) : Matching h (w.next event) :=
  matching.keep (matching.voting.step allowed noWin) (fun q => nodes ▸ keeps_setNode keeps q) sent

theorem step (matching : Matching h w) {event : Event n} (allowed : w.Allowed event)
    (plain : event.Plain) : ∃ later, h.Extends later ∧ Matching later (w.next event) := by
  cases event with
  | timeout p =>
    exact ⟨h, .refl h, matching.stay allowed (by simp) rfl rfl (quiet_startElection _ p).toKeepsLog⟩
  | vote p args =>
    exact ⟨h, .refl h, matching.stay allowed (by simp) rfl rfl (quiet_requestVote _ args).toKeepsLog⟩
  | voteReply p reply =>
    exact ⟨h, .refl h, matching.stay allowed (by simp) rfl rfl (quiet_handleVoteReply _ reply).toKeepsLog⟩
  | win p =>
    rcases allowed with ⟨candidate, group, majority, votes⟩
    exact ⟨_, extends_crown (matching.vacant candidate majority votes) p _,
      matching.win candidate majority votes⟩
  | abandon p =>
    exact ⟨h, .refl h, matching.stay allowed (by simp) rfl rfl (quiet_abandonElection _ _).toKeepsLog⟩
  | replicate p => exact ⟨h, .refl h, matching.replicate p allowed⟩
  | client p command =>
    by_cases leader : (w.nodes p).state = .leader
    · exact ⟨_, h.extends_add _ _, matching.client p command leader⟩
    · refine ⟨h, .refl h, matching.stay allowed (by simp) rfl rfl ?_⟩
      rw [appendEntry, if_neg leader]
      exact (Node.Quiet.refl _).toKeepsLog
  | append p args => exact ⟨h, .refl h, matching.append p args allowed⟩
  | appendReply p peer args reply =>
    exact ⟨h, .refl h, matching.stay allowed (by simp) rfl rfl (keepsLog_handleAppendReply _ p peer args reply)⟩
  | appendError p peer =>
    exact ⟨h, .refl h, matching.stay allowed (by simp) rfl rfl (keepsLog_handleAppendError _ peer)⟩
  | takeSnapshot | install | snapshotReply | restart => exact plain.elim

theorem agree (matching : Matching h w) {p q : Fin n} {first second : LogEntry}
    (inFirst : first ∈ (w.nodes p).log) (inSecond : second ∈ (w.nodes q).log)
    (index : first.index = second.index) (term : first.term = second.term) (k : Nat)
    (upTo : (k : Int) ≤ first.index) : (w.nodes p).log[k]? = (w.nodes q).log[k]? := by
  rcases append_of_mem inFirst with ⟨front, back, split⟩
  rcases append_of_mem inSecond with ⟨other, rest, cut⟩
  have left : front ++ [first] <+: (w.nodes p).log := ⟨back, by rw [split, append_assoc]; rfl⟩
  have right : other ++ [second] <+: (w.nodes q).log := ⟨rest, by rw [cut, append_assoc]; rfl⟩
  have place := matching.indexed_of_grounded (matching.grounded p) front first left
  have placeToo := matching.indexed_of_grounded (matching.grounded q) other second right
  have same := (matching.grounded p).eq_of_term (matching.grounded q) left right (by omega) term
  have inside : k < (front ++ [first]).length := by
    rw [length_append, length_singleton]
    omega
  calc
    (w.nodes p).log[k]? = (front ++ [first])[k]? := by
      rcases left with ⟨back, same⟩
      rw [← same, List.getElem?_append_left inside]
    _ = (w.nodes q).log[k]? := by
      rw [same] at inside ⊢
      rcases right with ⟨rest, same⟩
      rw [← same, List.getElem?_append_left inside]

end Matching

theorem Cluster.plain_events (c : Cluster n) {input : Input n} (plain : input.Plain) :
    ∀ event ∈ c.events input, event.Plain := by
  intro event member
  cases input <;> simp only [events] at member <;> grind [Event.Plain, Input.Plain]

/-- On every node an entry stands at the position of its index. -/
def LogsMatch (nodes : Fin n → Node n) : Prop :=
  (∀ p (i : Nat) (entry : LogEntry), (nodes p).log[i]? = some entry → entry.index = i) ∧
  ∀ p q, ∀ first ∈ (nodes p).log, ∀ second ∈ (nodes q).log, first.index = second.index →
    first.term = second.term → ∀ k : Nat, (k : Int) ≤ first.index →
      (nodes p).log[k]? = (nodes q).log[k]?

theorem matching_run (inputs : List (Input n)) (plain : ∀ input ∈ inputs, input.Plain) :
    ∃ h, Matching h (run Cluster.step Cluster.new inputs).world := by
  rcases Cluster.Counting.new.recorded_run Reigns.Extends.refl (fun _ _ _ => .trans)
    (fun _ _ _ matching allowed => Matching.step matching allowed.1 allowed.2)
    (fun c _ plain => Guarded.of_forall c.world _ (c.plain_events plain)) empty .new inputs
    (Guarded.of_forall _ inputs plain) with ⟨h, _, _, matching⟩
  exact ⟨h, matching⟩

end KairosFlux.Raft
