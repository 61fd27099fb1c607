import KairosFlux.Raft.Progress

/-! State machine safety. `matchIndex` starts at 0, which is also the index of the first entry; a
reply from an earlier term counts in a later one; and an error can take `nextIndex` below 0, where
the follower checks nothing. In the runs where a leader meets none of the three, nodes apply the same
entries. -/

namespace KairosFlux.Raft

open Lib List Function Node

variable {n : Nat}

namespace Node

/-- The first entry of the log is of the current term and not committed. -/
def Opens (r : Node n) : Prop :=
  r.commitIndex < 0 ∧ ∃ first ∈ r.log[0]?, first.term = r.term
deriving Decidable

theorem findCommit_spec {r : Node n} {me : Fin n} {count : Nat} {index : Int}
    (found : r.findCommit me count = some index) :
    ∃ (i : Nat) (entry : LogEntry), r.log[i]? = some entry ∧ entry.index = index ∧
      r.commitIndex < index ∧ entry.term = r.term ∧ n / 2 < r.replicas me index := by
  induction count with
  | zero => cases found
  | succ i ih =>
    rw [findCommit] at found
    split at found
    · exact ih found
    case h_2 entry there =>
      split_ifs at found with counted
      · obtain rfl := Option.some.inj found
        exact ⟨i, entry, there, rfl, counted⟩
      · exact ih found

def holders (r : Node n) (me : Fin n) (index : Int) : Finset (Fin n) :=
  insert me (Finset.univ.filter fun peer => peer ≠ me ∧ index ≤ r.matchIndex peer)

theorem updateCommitIndex_same (r : Node n) (me : Fin n) :
    (r.updateCommitIndex me).nextIndex = r.nextIndex ∧
      (r.updateCommitIndex me).matchIndex = r.matchIndex := by
  rw [updateCommitIndex]
  split_ifs
  · split
    · exact ⟨applyCommittedLogs_nextIndex _, applyCommittedLogs_matchIndex _⟩
    · exact ⟨rfl, rfl⟩
  · exact ⟨rfl, rfl⟩

end Node

/-- A majority has acknowledged the first entry to the leader of the term. -/
def World.Confirmed (w : World n) (p : Fin n) (T : Nat) : Prop :=
  ∃ group : Finset (Fin n), Majority group ∧ ∀ q ∈ group, q = p ∨
    ∃ args, (q, args) ∈ w.acked ∧ args.term = T ∧ 0 ≤ args.prevLogIndex + args.entries.length

variable {h : Reigns (Fin n) LogEntry} {w : World n}

/-- What the leader counts was acknowledged by a majority in its term. -/
theorem counted_committed {r : Node n} {p : Fin n} (leads : h.leader r.term = some p)
    (log : r.log = h.log r.term) (indexed : Indexed r.log) (tracks : ∀ peer, Tracks w r peer)
    (first : r.Opens → w.Confirmed p r.term) {index : Int}
    (found : r.findCommit p r.log.length = some index) :
    r.commitIndex < index ∧ index < r.log.length ∧
      Committed LogEntry.term h (w.Acked h) r.term (r.log.take (index + 1).toNat) := by
  rcases findCommit_spec found with ⟨i, entry, there, place, ahead, term, many⟩
  have bound := (List.getElem?_eq_some_iff.mp there).1
  have short : (r.log.take i).length = i := length_take_of_le bound.le
  have inside := prefix_of_getElem? (List.take_prefix i r.log) (by rwa [short])
  have number : index = i := by
    rw [← place, indexed _ entry inside, short]
  have whole : r.log.take (index + 1).toNat = r.log.take i ++ [entry] := by
    rw [number, Int.toNat_natCast_add_one, take_add_one, there]
    rfl
  have acked : ∀ q args, (q, args) ∈ w.acked → args.term = r.term →
      index ≤ args.prevLogIndex + args.entries.length →
      w.Acked h q r.term (r.log.take (index + 1).toNat) := by
    intro q args ack same reaches
    refine ⟨log ▸ take_prefix _ _, .inr ⟨args, ack, same, ?_⟩⟩
    rw [length_take]
    omega
  refine ⟨ahead, by omega, ?_, log ▸ take_prefix _ _, ⟨_, entry, whole, term⟩, ?_⟩
  · rw [leads]
    exact Option.some_ne_none p
  · by_cases zero : index = 0
    · -- The first entry: the count says nothing, but the acknowledgements are there.
      have opens : r.Opens := ⟨by omega, entry, by rwa [show i = 0 by omega] at there, term⟩
      rcases first opens with ⟨group, majority, confirmed⟩
      refine ⟨group, majority, fun q member => ?_⟩
      rcases confirmed q member with rfl | ⟨args, ack, same, reaches⟩
      · exact ⟨log ▸ take_prefix _ _, .inl leads⟩
      · exact acked q args ack same (zero ▸ reaches)
    · refine ⟨r.holders p index, ?_, fun q member => ?_⟩
      · rw [Majority, Fintype.card_fin, holders, Finset.card_insert_of_notMem (by simp), add_comm]
        exact many
      · rcases Finset.mem_insert.mp member with rfl | counted
        · exact ⟨log ▸ take_prefix _ _, .inl leads⟩
        · have reaches := (Finset.mem_filter.mp counted).2.2
          rcases (tracks q).2.2 with nothing | ⟨args, ack, same, matched⟩
          · omega
          · exact acked q args ack same (matched ▸ reaches)

theorem settled_updateCommitIndex {r : Node n} {p : Fin n} (settled : Settled h w r)
    (base : r.lastIncludedIndex = 0) (indexed : Indexed r.log) (leads : h.leader r.term = some p)
    (log : r.log = h.log r.term) (tracks : ∀ peer, Tracks w r peer)
    (first : r.Opens → w.Confirmed p r.term) : Settled h w (r.updateCommitIndex p) := by
  rw [updateCommitIndex]
  split_ifs
  · split
    case h_1 index found =>
      rcases counted_committed leads log indexed tracks first found with
        ⟨ahead, inside, committed⟩
      exact settled.commit base indexed (settled.start.trans ahead.le) inside
        (.inr ⟨r.term, _, le_rfl, committed, prefix_rfl⟩)
    case h_2 => exact settled
  · exact settled

theorem tracks_setNext {r : Node n} {peer q : Fin n} {next : Int} (tracks : Tracks w r q)
    (start : 0 ≤ next) (bound : next ≤ r.log.length) :
    Tracks w { r with nextIndex := update r.nextIndex peer next } q := by
  rcases tracks with ⟨startOld, boundOld, matched⟩
  by_cases here : q = peer
  · subst here
    simp only [Tracks, update_self]
    exact ⟨start, bound, matched⟩
  · simp only [Tracks, update_of_ne here]
    exact ⟨startOld, boundOld, matched⟩

theorem tracks_advanceMatch {r : Node n} {peer q : Fin n} {args : AppendEntriesArgs n}
    (tracks : Tracks w r q) (ack : (peer, args) ∈ w.acked) (term : args.term = r.term)
    (start : 0 ≤ args.prevLogIndex + args.entries.length + 1)
    (bound : args.prevLogIndex + args.entries.length + 1 ≤ r.log.length) :
    Tracks w (r.advanceMatch peer (args.prevLogIndex + args.entries.length)) q := by
  rw [advanceMatch]
  split_ifs
  · rcases tracks with ⟨startOld, boundOld, matched⟩
    by_cases here : q = peer
    · subst here
      simp only [Tracks, update_self]
      exact ⟨start, bound, .inr ⟨args, ack, term, rfl⟩⟩
    · simp only [Tracks, update_of_ne here]
      exact ⟨startOld, boundOld, matched⟩
  · exact tracks

theorem tracks_updateCommitIndex {r : Node n} {me q : Fin n} (tracks : Tracks w r q)
    (leader : (r.updateCommitIndex me).state = .leader) : Tracks w (r.updateCommitIndex me) q := by
  have keeps := r.keepsLog_updateCommitIndex me
  rcases r.updateCommitIndex_same me with ⟨next, matched⟩
  rw [Tracks, next, matched, keeps.log, (keeps.leads leader).2]
  exact tracks

namespace Committing

theorem new : Committing Reigns.empty (Cluster.new : Cluster n).world where
  matching := .new
  canvass := by
    constructor
    case recent =>
      rintro _ ⟨call, member, _⟩
      cases member
    case announced =>
      rintro _ ⟨call, member, _⟩
      cases member
    case granted =>
      rintro _ ⟨call, member, _⟩
      cases member
  acked := by
    rintro _ ⟨call, member, _⟩
    cases member
  offers := by
    rintro _ ⟨call, member, _⟩
    cases member
  tracks _ leader := nomatch leader
  acks := by
    rintro p T log ⟨_, leads | ⟨_, ⟨call, member, _⟩, _⟩⟩
    · cases leads
    · cases member
  ballots := by
    rintro _ ⟨call, member, _⟩
    cases member
  elections _ ruled := absurd rfl ruled
  settled _ := ⟨le_rfl, neg_one_lt_zero, .inl rfl, nofun⟩

theorem hear (committing : Committing h w) {p : Fin n} {r : Node n}
    (matching : Matching h (w.setNode p r)) (keeps : (w.nodes p).KeepsLog r)
    (steady : (w.nodes p).Steady r)
    (tracks : r.state = .leader → ∀ peer, Tracks w r peer) (settled : Settled h w r) :
    Committing h (w.setNode p r) := by
  have keepsAll := Matching.keeps_setNode keeps
  apply committing.keep matching
  case keeps => exact keepsAll
  case canvass =>
    exact committing.canvass.keep rfl committing.canvass.granted (fun q => (keepsAll q).term)
      (candidates_setNode (candidate_of_steady steady keeps.log))
  case sent => rfl
  case acked => rfl
  case tracks => exact fun q => w.forall_setNode q tracks fun q _ => committing.tracks q
  case ballots => exact fun vote member _ => .inl member
  case settled => exact fun q => w.forall_setNode q settled fun q _ => committing.settled q

theorem appendError (committing : Committing h w) {p peer : Fin n}
    (matching : Matching h (w.next (.appendError p peer)))
    (inside : (w.nodes p).state = .leader → 0 < (w.nodes p).nextIndex peer) :
    Committing h (w.next (.appendError p peer)) := by
  apply committing.hear matching (keepsLog_handleAppendError _ peer)
    (steady_handleAppendError _ peer)
  case tracks =>
    intro leader other
    rw [handleAppendError] at leader ⊢
    split_ifs at leader ⊢ with leads
    · have positive := inside leads
      have bound := (committing.tracks p leads peer).2.1
      exact tracks_setNext (committing.tracks p leads other) (by omega) (by omega)
    · exact absurd leader leads
  case settled =>
    rw [handleAppendError]
    split_ifs
    · exact (committing.settled p).unmoved ⟨⟨rfl, rfl, le_rfl, fun leads => ⟨leads, rfl⟩⟩, rfl, rfl⟩
    · exact committing.settled p

/-- A leader that is told of success in its own term counts acknowledgements. -/
theorem appendReply (committing : Committing h w) {p peer : Fin n} {args : AppendEntriesArgs n}
    {reply : AppendEntriesReply} (matching : Matching h (w.next (.appendReply p peer args reply)))
    (acked : reply.success = true → (peer, args) ∈ w.acked)
    (current : reply.success = true → (w.nodes p).state = .leader → args.term = (w.nodes p).term)
    (first : reply.success = true → (w.nodes p).state = .leader → (w.nodes p).Opens →
      w.Confirmed p (w.nodes p).term) :
    Committing h (w.next (.appendReply p peer args reply)) := by
  have keeps := (w.nodes p).keepsLog_handleAppendReply p peer args reply
  have settled := committing.settled p
  have tracked : reply.success = true → (w.nodes p).state = .leader → ∀ other,
      Tracks w ((w.nodes p).advanceMatch peer (args.prevLogIndex + args.entries.length)) other := by
    intro success leads other
    have ack := acked success
    have offers : Offers h w args := committing.offers _ (committing.acked ack)
    rcases offers with ⟨front, ⟨length, _, _⟩, _⟩
    have bound := committing.sent_le ack
    rw [current success leads, ← committing.matching.leads p leads] at bound
    exact tracks_advanceMatch (committing.tracks p leads other) ack (current success leads)
      (by omega) (by omega)
  apply committing.hear matching keeps (steady_handleAppendReply _ p peer args reply)
  case tracks =>
    intro leader other
    have leads := (keeps.leads leader).1
    rw [handleAppendReply] at leader ⊢
    split_ifs at leader ⊢ with later success positive
    · exact tracks_updateCommitIndex (tracked success leads other) leader
    · have bound := (committing.tracks p leads peer).2.1
      exact tracks_setNext (committing.tracks p leads other) (by omega) (by omega)
    · exact committing.tracks p leads other
  case settled =>
    rw [handleAppendReply]
    split_ifs with later success positive
    · exact settled.unmoved ⟨⟨rfl, rfl, later.le, by simp⟩, rfl, rfl⟩
    · rcases (w.nodes p).advanceMatch_spec peer (args.prevLogIndex + args.entries.length) with
        ⟨nextIndex, matchIndex, same⟩
      rw [same] at tracked ⊢
      have unmoved : Settled h w
          { w.nodes p with nextIndex := nextIndex, matchIndex := matchIndex } :=
        settled.unmoved ⟨⟨rfl, rfl, le_rfl, fun leads => ⟨leads, rfl⟩⟩, rfl, rfl⟩
      by_cases leads : (w.nodes p).state = .leader
      · apply settled_updateCommitIndex unmoved
        case base => exact committing.matching.base p
        case indexed => exact committing.matching.indexed_of_grounded (committing.matching.grounded p)
        case leads => exact committing.matching.voting.leads p leads
        case log => exact committing.matching.leads p leads
        case tracks => exact tracked success leads
        case first => exact first success leads
      · rw [updateCommitIndex, if_neg leads]
        exact unmoved
    · exact settled.unmoved ⟨⟨rfl, rfl, le_rfl, fun leads => ⟨leads, rfl⟩⟩, rfl, rfl⟩
    · exact settled

end Committing

/-- What makes the account of a leader right. A success that it is told of is of its own term; if its
first entry is of this term and not committed yet, a majority has acknowledged it; and an error does
not take `nextIndex` below 0. -/
def World.Reliable (w : World n) : Event n → Prop
  | .appendReply p _ args reply => reply.success = true → (w.nodes p).state = .leader →
      args.term = (w.nodes p).term ∧ ((w.nodes p).Opens → w.Confirmed p (w.nodes p).term)
  | .appendError p peer => (w.nodes p).state = .leader → 0 < (w.nodes p).nextIndex peer
  | _ => True

theorem Committing.step (committing : Committing h w) {event : Event n} (allowed : w.Allowed event)
    (plain : event.Plain) (reliable : w.Reliable event) :
    ∃ later, h.Extends later ∧ Committing later (w.next event) := by
  have matching := committing.matching
  cases event with
  | timeout p =>
    have still := matching.stay allowed (by simp) rfl rfl (quiet_startElection _ p).toKeepsLog
    exact ⟨h, .refl h, committing.timeout p still⟩
  | vote p args =>
    have still := matching.stay allowed (by simp) rfl rfl (quiet_requestVote _ args).toKeepsLog
    exact ⟨h, .refl h, committing.vote p args allowed still⟩
  | voteReply p reply =>
    have quiet := (w.nodes p).quiet_handleVoteReply reply
    have still := matching.stay allowed (by simp) rfl rfl quiet.toKeepsLog
    exact ⟨h, .refl h, committing.silent still quiet
      (candidate_of_steady (steady_handleVoteReply _ reply) quiet.log)⟩
  | win p =>
    rcases allowed with ⟨candidate, group, majority, votes⟩
    exact ⟨_, Reigns.extends_crown (matching.vacant candidate majority votes) p _,
      committing.win candidate majority votes⟩
  | abandon p =>
    have quiet := (w.nodes p).quiet_abandonElection (w.nodes p).term
    have still := matching.stay allowed (by simp) rfl rfl quiet.toKeepsLog
    refine ⟨h, .refl h, committing.silent still quiet ?_⟩
    rw [abandonElection]
    split_ifs
    · simp
    · exact fun candidate => ⟨candidate, rfl, rfl⟩
  | replicate p => exact ⟨h, .refl h, committing.replicate allowed⟩
  | client p command =>
    by_cases leader : (w.nodes p).state = .leader
    · exact ⟨_, h.extends_add _ _, committing.client p command leader⟩
    · have same : ((w.nodes p).appendEntry command).1 = w.nodes p := by
        rw [appendEntry, if_neg leader]
      have quiet : (w.nodes p).Quiet ((w.nodes p).appendEntry command).1 := by
        rw [same]
        exact .refl _
      have still := matching.stay allowed (by simp) rfl rfl quiet.toKeepsLog
      refine ⟨h, .refl h, committing.silent still quiet ?_⟩
      rw [same]
      exact fun candidate => ⟨candidate, rfl, rfl⟩
  | append p args => exact ⟨h, .refl h, committing.append p args allowed⟩
  | appendReply p peer args reply =>
    have still := matching.stay allowed (by simp) rfl rfl (keepsLog_handleAppendReply _ p peer args reply)
    exact ⟨h, .refl h, committing.appendReply still allowed.2.2
      (fun success leader => (reliable success leader).1)
      fun success leader => (reliable success leader).2⟩
  | appendError p peer =>
    have still := matching.stay allowed (by simp) rfl rfl (keepsLog_handleAppendError _ peer)
    exact ⟨h, .refl h, committing.appendError still reliable⟩
  | takeSnapshot | install | snapshotReply | restart => exact plain.elim

theorem Committing.safe_total (committing : Committing h w) {T U : Nat} {first second : List LogEntry}
    (left : w.Safe h T first) (right : w.Safe h U second) : first <+: second ∨ second <+: first := by
  rcases left with rfl | ⟨_, whole, _, committed, within⟩
  · exact .inl nil_prefix
  · rcases right with rfl | ⟨_, other, _, committedToo, withinToo⟩
    · exact .inr nil_prefix
    · rcases committing.matching.sound.committed_total committing.elections committed committedToo with
        shorter | longer
      · exact prefix_or_prefix_of_prefix (within.trans shorter) withinToo
      · exact prefix_or_prefix_of_prefix within (withinToo.trans longer)

theorem Committing.safe_eq (committing : Committing h w) {T U : Nat} {front other : List LogEntry}
    {first second : LogEntry} (left : w.Safe h T (front ++ [first]))
    (right : w.Safe h U (other ++ [second])) (place : front.length = other.length) :
    first = second := by
  have length : (front ++ [first]).length = (other ++ [second]).length := by
    rw [length_append, length_append, place]
    rfl
  have same : front ++ [first] = other ++ [second] := by
    rcases committing.safe_total left right with shorter | longer
    · exact shorter.eq_of_length length
    · exact (longer.eq_of_length length.symm).symm
  exact (List.cons.inj (append_inj' same rfl).2).1

theorem Committing.applied_eq (committing : Committing h w) {p q : Fin n} {first second : LogEntry}
    (inFirst : first ∈ (w.nodes p).applyCh) (inSecond : second ∈ (w.nodes q).applyCh)
    (index : first.index = second.index) : first = second := by
  rcases (committing.settled p).applied first inFirst with ⟨front, place, safe⟩
  rcases (committing.settled q).applied second inSecond with ⟨other, placeToo, safeToo⟩
  exact committing.safe_eq safe safeToo (by omega)

namespace Cluster

def confirmers (c : Cluster n) (p : Fin n) (T : Nat) : List (Fin n) :=
  (others p).filter fun q => c.appendCalls.any fun call => call.peer = q ∧ call.args.term = T ∧
    0 ≤ call.args.prevLogIndex + call.args.entries.length ∧ call.replies.any AppendEntriesReply.success

/-- The condition on the replies and errors that a leader handles. -/
def Reliable (c : Cluster n) : Input n → Prop
  | .returnAppend i k => ∀ call ∈ c.appendCalls[i]?, call.pending = true →
      ∀ reply ∈ call.replies[k]?, reply.success = true → (c.nodes call.caller).state = .leader →
        call.args.term = (c.nodes call.caller).term ∧ ((c.nodes call.caller).Opens →
          n / 2 < 1 + (c.confirmers call.caller (c.nodes call.caller).term).length)
  | .failAppend i => ∀ call ∈ c.appendCalls[i]?, call.pending = true →
      (c.nodes call.caller).state = .leader → 0 < (c.nodes call.caller).nextIndex call.peer
  | _ => True

instance (c : Cluster n) : DecidablePred c.Reliable := by
  intro input
  cases input <;> dsimp only [Cluster.Reliable] <;> infer_instance

theorem confirmed_of_confirmers (c : Cluster n) {p : Fin n} {T : Nat}
    (many : n / 2 < 1 + (c.confirmers p T).length) : c.world.Confirmed p T := by
  have nodup : (c.confirmers p T).Nodup := ((nodup_finRange n).filter _).filter _
  have apart : p ∉ (c.confirmers p T).toFinset := by
    intro member
    have other := mem_of_mem_filter (mem_toFinset.mp member)
    exact (mem_others.mp other) rfl
  refine ⟨insert p (c.confirmers p T).toFinset, ?_, fun q member => ?_⟩
  · rw [Majority, Fintype.card_fin, Finset.card_insert_of_notMem apart,
      toFinset_card_of_nodup nodup, add_comm]
    exact many
  · rcases Finset.mem_insert.mp member with rfl | confirms
    · exact .inl rfl
    · right
      have found := (mem_filter.mp (mem_toFinset.mp confirms)).2
      rcases any_eq_true.mp found with ⟨call, here, holds⟩
      rw [decide_eq_true_iff] at holds
      rcases holds with ⟨rfl, term, reaches, success⟩
      rcases any_eq_true.mp success with ⟨reply, answered, success⟩
      exact ⟨call.args, ⟨call, here, rfl, reply, answered, success⟩, term, reaches⟩

theorem reliable_events (c : Cluster n) {input : Input n} (reliable : c.Reliable input) :
    Guarded World.next World.Reliable c.world (c.events input) := by
  have always (free : ∀ event ∈ c.events input, ∀ w : World n, w.Reliable event) :
      Guarded World.next World.Reliable c.world (c.events input) := by
    have every : Guarded World.next (fun _ event => ∀ w : World n, w.Reliable event) c.world
        (c.events input) := Guarded.of_forall c.world _ free
    exact Guarded.mono (fun w _ holds => holds w) _ _ every
  cases input with
  | returnAppend i k =>
    rw [events]
    cases found : c.appendCalls[i]? with
    | none => trivial
    | some call =>
      simp only [Option.bind_some]
      split_ifs with pending
      · cases answered : call.replies[k]? with
        | none => trivial
        | some reply =>
          refine ⟨fun success leader => ?_, trivial⟩
          rcases reliable call found pending reply answered success leader with ⟨term, first⟩
          exact ⟨term, fun opens => c.confirmed_of_confirmers (first opens)⟩
      · trivial
  | failAppend i =>
    rw [events]
    cases found : c.appendCalls[i]? with
    | none => trivial
    | some call =>
      simp only [Option.bind_some]
      split_ifs with pending
      · exact ⟨reliable call found pending, trivial⟩
      · trivial
  | _ =>
    apply always
    intro event member
    simp only [events] at member
    grind [World.Reliable]

end Cluster

def SameApplied (nodes : Fin n → Node n) : Prop :=
  ∀ p q, ∀ first ∈ (nodes p).applyCh, ∀ second ∈ (nodes q).applyCh, first.index = second.index →
    first.term = second.term ∧ first.command = second.command

theorem committing_run (inputs : List (Input n)) (plain : ∀ input ∈ inputs, input.Plain)
    (reliable : Guarded Cluster.step Cluster.Reliable Cluster.new inputs) :
    ∃ h, Committing h (run Cluster.step Cluster.new inputs).world := by
  have both : Guarded Cluster.step (fun c input => input.Plain ∧ c.Reliable input) Cluster.new inputs :=
    Guarded.and _ _ (Guarded.of_forall _ inputs plain) reliable
  rcases Cluster.Counting.new.recorded_run Reigns.Extends.refl (fun _ _ _ => .trans)
    (fun _ _ _ committing allowed =>
      Committing.step committing allowed.1 allowed.2.1 allowed.2.2)
    (fun c _ holds => Guarded.and _ _ (Guarded.of_forall c.world _ (c.plain_events holds.1))
      (c.reliable_events holds.2)) Reigns.empty .new inputs both with ⟨h, _, _, committing⟩
  exact ⟨h, committing⟩

theorem Committing.step_safe {event : Event n} {T : Nat} {log : List LogEntry}
    (before : Committing h w ∧ w.Safe h T log)
    (allowed : w.Allowed event ∧ event.Plain ∧ w.Reliable event) : ∃ later, h.Extends later ∧
      Committing later (w.next event) ∧ (w.next event).Safe later T log := by
  rcases before.1.step allowed.1 allowed.2.1 allowed.2.2 with ⟨later, extension, after⟩
  exact ⟨later, extension, after, before.2.extend extension (w.acked_subset_next event)⟩

end KairosFlux.Raft
