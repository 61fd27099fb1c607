import KairosFlux.Raft.Network

/-! How `awaitVotes` counts: a result on the channel comes from a call of its own to a peer of its
own, so a majority on the channel is a majority of nodes, and every step of the cluster is a step
that the network allows. -/

namespace KairosFlux.Raft

open Lib List

theorem getElem?_of_modify {Item : Type} {items : List Item} {i k : Nat} {change : Item → Item}
    {item : Item} (found : (items.modify i change)[k]? = some item) :
    ∃ old, items[k]? = some old ∧ item = if i = k then change old else old := by
  rw [List.getElem?_modify] at found
  rcases Option.map_eq_some_iff.mp found with ⟨old, place, rfl⟩
  exact ⟨old, place, rfl⟩

theorem getElem?_modify_of {Item : Type} {items : List Item} {i k : Nat} (change : Item → Item)
    {old : Item} (found : items[k]? = some old) :
    (items.modify i change)[k]? = some (if i = k then change old else old) := by
  rw [List.getElem?_modify, found]
  rfl

theorem map_modify {Item Key : Type} (items : List Item) (i : Nat) (change : Item → Item)
    (key : Item → Key) (same : ∀ item, key (change item) = key item) :
    (items.modify i change).map key = items.map key := by
  apply ext_getElem?
  intro k
  rw [List.getElem?_map, List.getElem?_map, List.getElem?_modify]
  cases items[k]? with
  | none => rfl
  | some item =>
    change some (key (if i = k then change item else item)) = some (key item)
    split_ifs
    · rw [same]
    · rfl

theorem index_eq_of_key {Item Key : Type} {items : List Item} {key : Item → Key}
    (distinct : (items.map key).Nodup) {i j : Nat} {first second : Item}
    (left : items[i]? = some first) (right : items[j]? = some second) (same : key first = key second) :
    i = j := by
  have inside : i < (items.map key).length := by
    rw [length_map]
    exact (List.getElem?_eq_some_iff.mp left).1
  apply (List.getElem?_inj inside distinct).mp
  rw [List.getElem?_map, List.getElem?_map, left, right]
  exact congrArg some same

namespace Cluster

variable {n : Nat}

/-- The call has a round of the caller for the term. -/
def HasRound (c : Cluster n) (call : Call n (Ballot n) RequestVoteReply) : Prop :=
  ∃ round, c.rounds[call.args.round]? = some round ∧ round.node = call.caller ∧
    round.electionTerm = call.args.args.term

/-- The results that were positive come from voters whose calls have ended. -/
def Counted (c : Cluster n) (i : Nat) (round : Round n) : Prop :=
  ∃ group : Finset (Fin n), group.card + 1 = round.votes + round.voteCh.count true ∧
    ∀ voter ∈ group, voter ≠ round.node ∧ c.world.Votes voter round.node round.electionTerm ∧
      ∀ call ∈ c.voteCalls, call.args.round = i → call.peer = voter → call.pending = false

def ballotKey (call : Call n (Ballot n) RequestVoteReply) : Nat × Fin n :=
  (call.args.round, call.peer)

structure Counting (c : Cluster n) : Prop where
  ballots : ∀ call ∈ c.voteCalls, call.peer ≠ call.caller ∧
    call.args.args.candidateID = call.caller ∧ c.HasRound call
  distinct : (c.voteCalls.map ballotKey).Nodup
  counted : ∀ i round, c.rounds[i]? = some round → c.Counted i round
  appends : ∀ call ∈ c.appendCalls, call.args.leaderID = call.caller ∧ call.peer ≠ call.caller

theorem Counting.new : Counting (Cluster.new : Cluster n) where
  ballots _ member := nomatch member
  distinct := nodup_nil
  counted _ _ found := by cases found
  appends _ member := nomatch member

namespace Counting

variable {c : Cluster n}

section

variable (counting : Counting c)
include counting

theorem of_same (after : Cluster n) (rounds : after.rounds = c.rounds)
    (voteCalls : after.voteCalls = c.voteCalls)
    (appends : ∀ call ∈ after.appendCalls, call.args.leaderID = call.caller ∧
      call.peer ≠ call.caller) : Counting after where
  ballots call member := by
    rw [HasRound, rounds]
    exact counting.ballots call (voteCalls ▸ member)
  distinct := by
    rw [voteCalls]
    exact counting.distinct
  counted i round found := by
    have granted : after.world.granted = c.world.granted := by
      rw [world, world, voteCalls]
    rw [Counted, voteCalls]
    simp only [World.Votes, granted]
    exact counting.counted i round (rounds ▸ found)
  appends := appends

theorem electionTimeout (node : Fin n) : Counting (c.electionTimeout node) := by
  rw [Cluster.electionTimeout]
  split
  case h_1 => exact counting
  case h_2 r args started =>
    have candidate : args.candidateID = node := by
      rw [Node.startElection] at started
      split_ifs at started
      · cases started
      · rw [Prod.mk.injEq, Option.some.injEq] at started
        rw [← started.2]
    have kept : ∀ (k : Nat) round, c.rounds[k]? = some round →
        (c.rounds ++ [⟨node, args.term, [], 1, 0, false⟩])[k]? = some round := by
      intro k round found
      rw [List.getElem?_append_left (List.getElem?_eq_some_iff.mp found).1]
      exact found
    have earlier : ∀ call ∈ c.voteCalls, call.args.round < c.rounds.length := by
      intro call member
      rcases (counting.ballots call member).2.2 with ⟨round, found, _⟩
      exact (List.getElem?_eq_some_iff.mp found).1
    constructor
    case ballots =>
      intro call member
      rcases mem_append.mp member with old | new
      · rcases counting.ballots call old with ⟨different, named, round, found, rest⟩
        exact ⟨different, named, round, kept _ round found, rest⟩
      · rcases mem_map.mp new with ⟨peer, other, rfl⟩
        exact ⟨mem_others.mp other, candidate, ⟨node, args.term, [], 1, 0, false⟩,
          List.getElem?_concat_length, rfl, rfl⟩
    case distinct =>
      rw [map_append, map_map, nodup_append]
      refine ⟨counting.distinct, ?_, ?_⟩
      · apply ((nodup_finRange n).filter _).map
        intro first second same
        exact congrArg Prod.snd same
      · intro key old other new same
        rcases mem_map.mp old with ⟨call, member, rfl⟩
        rcases mem_map.mp new with ⟨peer, _, rfl⟩
        exact (earlier call member).ne (congrArg Prod.fst same)
    case counted =>
      intro k round found
      rcases Nat.lt_or_ge k c.rounds.length with old | new
      · rw [List.getElem?_append_left old] at found
        rcases counting.counted k round found with ⟨group, size, voters⟩
        refine ⟨group, size, fun voter member => ?_⟩
        rcases voters voter member with ⟨apart, ⟨ballot, voted, rest⟩, ended⟩
        refine ⟨apart, ⟨ballot, ?_, rest⟩, ?_⟩
        · exact (exists_answered_append _ _ _ (by simp [Call.new])).mpr voted
        · intro call inside sameRound samePeer
          rcases mem_append.mp inside with before | fresh
          · exact ended call before sameRound samePeer
          · rcases mem_map.mp fresh with ⟨peer, _, rfl⟩
            exact absurd sameRound old.ne'
      · rw [List.getElem?_append_right new] at found
        rw [List.getElem?_singleton] at found
        split_ifs at found
        obtain rfl := Option.some.inj found
        exact ⟨∅, rfl, fun _ member => absurd member (Finset.notMem_empty _)⟩
    case appends => exact counting.appends

theorem deliverVote (i : Nat) : Counting (c.deliverVote i) := by
  rw [Cluster.deliverVote]
  cases found : c.voteCalls[i]? with
  | none => exact counting
  | some call =>
    constructor
    case ballots =>
      intro other member
      rcases mem_modify member with old | ⟨old, place, rfl⟩
      · exact counting.ballots other old
      · exact counting.ballots old (mem_of_getElem? place)
    case distinct =>
      have keys := map_modify c.voteCalls i
        (Call.answer ((c.nodes call.peer).requestVote call.args.args).2) ballotKey fun _ => rfl
      exact keys ▸ counting.distinct
    case counted =>
      intro k round place
      rcases counting.counted k round place with ⟨group, size, voters⟩
      refine ⟨group, size, fun voter member => ?_⟩
      rcases voters voter member with ⟨different, ⟨args, voted, named⟩, ended⟩
      refine ⟨different, ⟨args, ?_, named⟩, ?_⟩
      · exact (exists_answered _ _ found fun _ => rfl).mpr (.inl voted)
      · intro other inside sameRound samePeer
        rcases mem_modify inside with old | ⟨old, here, rfl⟩
        · exact ended other old sameRound samePeer
        · exact ended old (mem_of_getElem? here) sameRound samePeer
    case appends => exact counting.appends

theorem settleVote {i : Nat} {call : Call n (Ballot n) RequestVoteReply}
    (found : c.voteCalls[i]? = some call) (pending : call.pending = true) (granted : Bool)
    (voted : granted = true → (call.peer, call.args.args) ∈ c.world.granted) :
    Counting (c.settleVote i call granted) := by
  have here : call ∈ c.voteCalls := mem_of_getElem? found
  rcases counting.ballots call here with ⟨different, named, round, place, node, electionTerm⟩
  constructor
  case ballots =>
    intro other member
    have known : other.peer ≠ other.caller ∧ other.args.args.candidateID = other.caller ∧
        c.HasRound other := by
      rcases mem_modify member with old | ⟨old, _, rfl⟩
      · exact counting.ballots other old
      · exact counting.ballots old (mem_of_getElem? ‹_›)
    rcases known with ⟨apart, candidate, own, there, rest⟩
    refine ⟨apart, candidate, _, getElem?_modify_of _ there, ?_⟩
    split_ifs <;> exact rest
  case distinct =>
    have keys := map_modify c.voteCalls i Call.close ballotKey fun _ => rfl
    exact keys ▸ counting.distinct
  case counted =>
    intro k after there
    rcases getElem?_of_modify there with ⟨before, old, rfl⟩
    rcases counting.counted k before old with ⟨group, size, voters⟩
    -- A call in the new list is one of the old list, perhaps ended.
    have ended : ∀ voter ∈ group, ∀ other ∈ c.voteCalls.modify i Call.close,
        other.args.round = k → other.peer = voter → other.pending = false := by
      intro voter member other inside sameRound samePeer
      rcases mem_modify inside with before | ⟨_, _, rfl⟩
      · exact (voters voter member).2.2 other before sameRound samePeer
      · rfl
    by_cases own : call.args.round = k ∧ granted = true
    · rcases own with ⟨rfl, rfl⟩
      obtain rfl : round = before := Option.some.inj (place.symm.trans old)
      have fresh : call.peer ∉ group := by
        intro member
        have closed := (voters _ member).2.2 call here rfl rfl
        rw [pending] at closed
        cases closed
      rw [if_pos rfl]
      refine ⟨insert call.peer group, ?_, ?_⟩
      · rw [Finset.card_insert_of_notMem fresh, count_append, size]
        rfl
      · intro voter member
        rcases Finset.mem_insert.mp member with rfl | inGroup
        · refine ⟨node ▸ different, ⟨call.args.args, ?_, named.trans node.symm, electionTerm.symm⟩, ?_⟩
          · rw [world_settleVote]
            exact voted rfl
          · intro other inside sameRound samePeer
            rcases mem_iff_getElem?.mp inside with ⟨j, found'⟩
            rcases getElem?_of_modify found' with ⟨other, was, rfl⟩
            split_ifs at sameRound samePeer ⊢ with same
            · rfl
            · exact absurd (index_eq_of_key counting.distinct found was
                (Prod.ext sameRound.symm samePeer.symm)) same
        · rcases voters voter inGroup with ⟨apart, votes, _⟩
          rw [World.Votes, world_settleVote]
          exact ⟨apart, votes, ended voter inGroup⟩
    · refine ⟨group, ?_, ?_⟩
      · split_ifs with same
        · have refused : granted = false := by
            rw [← Bool.not_eq_true]
            exact fun yes => own ⟨same, yes⟩
          rw [refused, count_append, size]
          rfl
        · exact size
      · intro voter member
        rcases voters voter member with ⟨apart, votes, _⟩
        rw [World.Votes, world_settleVote]
        split_ifs <;> exact ⟨apart, votes, ended voter member⟩
  case appends => exact counting.appends

theorem modifyRound {i : Nat} {round : Round n}
    (found : c.rounds[i]? = some round) (change : Round n → Round n) (r : Node n)
    (node : (change round).node = round.node)
    (electionTerm : (change round).electionTerm = round.electionTerm)
    (same : (change round).votes + (change round).voteCh.count true =
      round.votes + round.voteCh.count true) :
    Counting { c.setNode round.node r with rounds := c.rounds.modify i change } where
  __ := counting
  ballots call member := by
    rcases counting.ballots call member with ⟨apart, candidate, own, there, caller, term⟩
    refine ⟨apart, candidate, _, getElem?_modify_of _ there, ?_⟩
    split_ifs with here
    · subst here
      obtain rfl := Option.some.inj (found.symm.trans there)
      exact ⟨node.trans caller, electionTerm.trans term⟩
    · exact ⟨caller, term⟩
  counted k after there := by
    rcases getElem?_of_modify there with ⟨before, old, rfl⟩
    rcases counting.counted k before old with ⟨group, size, voters⟩
    split_ifs with here
    · subst here
      obtain rfl := Option.some.inj (found.symm.trans old)
      refine ⟨group, size.trans same.symm, ?_⟩
      rw [node, electionTerm]
      exact voters
    · exact ⟨group, size, voters⟩

theorem receiveVote (i : Nat) : Counting (c.receiveVote i) := by
  cases found : c.rounds[i]? with
  | none =>
    rw [Cluster.receiveVote, found]
    exact counting
  | some round =>
    rcases c.receiveVote_cases found with ⟨_, finished⟩ | ⟨_, stays | ⟨granted, rest, channel, taken⟩⟩
    · rw [finished]
      exact counting.modifyRound found _ _ rfl rfl rfl
    · rw [stays]
      exact counting
    · rw [taken]
      have moved := counting.modifyRound found (fun round => { round with
        voteCh := rest
        votes := if granted then round.votes + 1 else round.votes
        received := round.received + 1 }) (c.nodes round.node) rfl rfl (by
          rw [channel]
          cases granted <;> simp
          omega)
      rw [setNode, Function.update_eq_self] at moved
      exact moved

theorem voteTimeout (i : Nat) : Counting (c.voteTimeout i) := by
  rw [Cluster.voteTimeout]
  cases found : c.rounds[i]? with
  | none => exact counting
  | some round =>
    simp only
    split_ifs
    · exact counting.modifyRound found _ _ rfl rfl rfl
    · exact counting

theorem returnVote (i k : Nat) : Counting (c.returnVote i k) := by
  rw [Cluster.returnVote]
  cases found : c.voteCalls[i]? with
  | none => exact counting
  | some call =>
    simp only
    split_ifs with pending
    · cases answered : call.replies[k]? with
      | none => exact counting
      | some reply =>
        have still : Counting (c.setNode call.caller
            ((c.nodes call.caller).handleVoteReply reply).1) :=
          counting.of_same _ rfl rfl counting.appends
        apply still.settleVote found pending
        intro granted
        refine ⟨call, mem_of_getElem? found, rfl, reply, mem_of_getElem? answered, ?_⟩
        rw [Node.handleVoteReply] at granted
        split_ifs at granted
        exact (of_decide_eq_true granted).2
    · exact counting

theorem failVote (i : Nat) : Counting (c.failVote i) := by
  rw [Cluster.failVote]
  cases found : c.voteCalls[i]? with
  | none => exact counting
  | some call =>
    simp only
    split_ifs with pending
    · exact counting.settleVote found pending false fun no => by cases no
    · exact counting

theorem appends_modify (i : Nat) (change : Call n (AppendEntriesArgs n) AppendEntriesReply →
      Call n (AppendEntriesArgs n) AppendEntriesReply)
    (same : ∀ call, (change call).args = call.args ∧ (change call).caller = call.caller ∧
      (change call).peer = call.peer) :
    ∀ call ∈ c.appendCalls.modify i change, call.args.leaderID = call.caller ∧
      call.peer ≠ call.caller := by
  intro call member
  rcases mem_modify member with old | ⟨old, place, rfl⟩
  · exact counting.appends call old
  · rcases same old with ⟨args, caller, peer⟩
    rw [args, caller, peer]
    exact counting.appends old (mem_of_getElem? place)

theorem replicateLog (node : Fin n) : Counting (c.replicateLog node) := by
  refine counting.of_same (c.replicateLog node) rfl rfl fun call member => ?_
  rcases mem_append.mp member with old | new
  · exact counting.appends call old
  · rcases mem_filterMap.mp new with ⟨peer, other, made⟩
    rcases Option.map_eq_some_iff.mp made with ⟨args, sent, rfl⟩
    rw [Node.Outgoing.entries?_eq_some] at sent
    refine ⟨?_, mem_others.mp other⟩
    change args.leaderID = node
    rw [Node.replicateTo_entries _ sent]

theorem setNode (node : Fin n) (r : Node n) : Counting (c.setNode node r) :=
  counting.of_same _ rfl rfl counting.appends

theorem appendEntry (node : Fin n) (command : Bytes) : Counting (c.appendEntry node command) := by
  rw [Cluster.appendEntry]
  split_ifs
  · exact counting.setNode node _
  · exact (counting.setNode node _).replicateLog node
  · exact counting

theorem heartbeat (node : Fin n) : Counting (c.heartbeat node) := by
  rw [Cluster.heartbeat]
  split_ifs
  · exact counting.replicateLog node
  · exact counting

theorem settleAppend (i : Nat) (node : Fin n) (r : Node n) : Counting (c.settleAppend i node r) :=
  counting.of_same (c.settleAppend i node r) rfl rfl
    (counting.appends_modify i Call.close fun _ => ⟨rfl, rfl, rfl⟩)

theorem deliverAppend (i : Nat) : Counting (c.deliverAppend i) := by
  rw [Cluster.deliverAppend]
  cases c.appendCalls[i]? with
  | none => exact counting
  | some call =>
    exact counting.of_same _ rfl rfl
      (counting.appends_modify i (Call.answer _) fun _ => ⟨rfl, rfl, rfl⟩)

theorem returnAppend (i k : Nat) : Counting (c.returnAppend i k) := by
  rw [Cluster.returnAppend]
  cases c.appendCalls[i]? with
  | none => exact counting
  | some call =>
    simp only
    split_ifs
    · cases call.replies[k]? with
      | none => exact counting
      | some reply => exact counting.settleAppend i _ _
    · exact counting

theorem failAppend (i : Nat) : Counting (c.failAppend i) := by
  rw [Cluster.failAppend]
  cases c.appendCalls[i]? with
  | none => exact counting
  | some call =>
    simp only
    split_ifs
    · exact counting.settleAppend i _ _
    · exact counting

theorem deliverSnapshot (i : Nat) (full : Bool) : Counting (c.deliverSnapshot i full) := by
  rw [Cluster.deliverSnapshot]
  cases c.snapshotCalls[i]? with
  | none => exact counting
  | some call => exact counting.of_same _ rfl rfl counting.appends

theorem returnSnapshot (i k : Nat) : Counting (c.returnSnapshot i k) := by
  rw [Cluster.returnSnapshot]
  cases c.snapshotCalls[i]? with
  | none => exact counting
  | some call =>
    simp only
    split_ifs
    · cases call.replies[k]? with
      | none => exact counting
      | some reply => exact counting.of_same _ rfl rfl counting.appends
    · exact counting

theorem restart (node : Fin n) : Counting (c.restart node) := by
  have rounds : ∀ (k : Nat) (after : Round n), (c.restart node).rounds[k]? = some after → ∃ before,
      c.rounds[k]? = some before ∧ after.node = before.node ∧
        after.electionTerm = before.electionTerm ∧ after.votes = before.votes ∧
        after.voteCh = before.voteCh := by
    intro k after found
    rw [Cluster.restart, List.getElem?_map] at found
    rcases Option.map_eq_some_iff.mp found with ⟨before, place, rfl⟩
    refine ⟨before, place, ?_⟩
    split_ifs <;> exact ⟨rfl, rfl, rfl, rfl⟩
  have calls : ∀ call ∈ (c.restart node).voteCalls, ∃ before ∈ c.voteCalls,
      call.args = before.args ∧ call.peer = before.peer ∧ call.caller = before.caller ∧
        (before.pending = false → call.pending = false) := by
    intro call member
    rcases mem_map.mp member with ⟨before, inside, rfl⟩
    refine ⟨before, inside, ?_⟩
    split_ifs
    · exact ⟨rfl, rfl, rfl, fun _ => rfl⟩
    · exact ⟨rfl, rfl, rfl, id⟩
  constructor
  case ballots =>
    intro call member
    rcases calls call member with ⟨before, inside, args, peer, caller, _⟩
    rcases counting.ballots before inside with ⟨apart, candidate, round, found, owner, term⟩
    have placed : (c.restart node).rounds[before.args.round]? =
        some (if round.node = node then { round with returned := true } else round) := by
      rw [Cluster.restart, List.getElem?_map, found]
      rfl
    rw [HasRound, args, peer, caller]
    refine ⟨apart, candidate, _, placed, ?_⟩
    split_ifs <;> exact ⟨owner, term⟩
  case distinct =>
    have keys : (c.restart node).voteCalls.map ballotKey = c.voteCalls.map ballotKey := by
      rw [Cluster.restart, map_map]
      apply map_congr_left
      intro call _
      rw [Function.comp_apply]
      split_ifs <;> rfl
    rw [keys]
    exact counting.distinct
  case counted =>
    intro k after found
    rcases rounds k after found with ⟨before, place, owner, term, votes, channel⟩
    rcases counting.counted k before place with ⟨group, size, voters⟩
    refine ⟨group, by rw [votes, channel, size], fun voter member => ?_⟩
    rcases voters voter member with ⟨apart, voted, ended⟩
    rw [World.Votes, world_restart, owner, term]
    refine ⟨apart, voted, fun call inside sameRound samePeer => ?_⟩
    rcases calls call inside with ⟨old, was, args, peer, _, pending⟩
    exact pending (ended old was (args ▸ sameRound) (peer ▸ samePeer))
  case appends =>
    intro call member
    rcases mem_map.mp member with ⟨before, inside, rfl⟩
    split_ifs <;> exact counting.appends before inside

theorem step (input : Input n) : Counting (c.step input) := by
  cases input with
  | electionTimeout node => exact counting.electionTimeout node
  | deliverVote i => exact counting.deliverVote i
  | returnVote i k => exact counting.returnVote i k
  | failVote i => exact counting.failVote i
  | receiveVote i => exact counting.receiveVote i
  | voteTimeout i => exact counting.voteTimeout i
  | heartbeat node => exact counting.heartbeat node
  | appendEntry node command => exact counting.appendEntry node command
  | deliverAppend i => exact counting.deliverAppend i
  | returnAppend i k => exact counting.returnAppend i k
  | failAppend i => exact counting.failAppend i
  | takeSnapshot node index full => exact counting.setNode node _
  | deliverSnapshot i full => exact counting.deliverSnapshot i full
  | returnSnapshot i k => exact counting.returnSnapshot i k
  | failSnapshot i => exact counting.of_same _ rfl rfl counting.appends
  | restart node => exact counting.restart node

theorem majority {i : Nat} {round : Round n}
    (found : c.rounds[i]? = some round) (decided : round.Decided) :
    ∃ group : Finset (Fin n), Majority group ∧ ∀ voter ∈ group, voter = round.node ∨
      c.world.Votes voter round.node round.electionTerm := by
  rcases counting.counted i round found with ⟨group, size, voters⟩
  have outside : round.node ∉ group := fun member => (voters _ member).1 rfl
  refine ⟨insert round.node group, ?_, fun voter member => ?_⟩
  · rw [Majority, Fintype.card_fin, Finset.card_insert_of_notMem outside, size]
    rcases decided with ⟨_, alone | ⟨_, rest, channel, enough⟩⟩
    · omega
    · rw [channel, count_cons_self]
      omega
  · rcases Finset.mem_insert.mp member with rfl | inside
    · exact .inl rfl
    · exact .inr (voters voter inside).2.1

theorem allowed (input : Input n) : Guarded World.next World.Allowed c.world (c.events input) := by
  cases input with
  | electionTimeout node => exact ⟨trivial, trivial⟩
  | deliverVote i =>
    rw [events]
    cases found : c.voteCalls[i]? with
    | none => trivial
    | some call => exact ⟨⟨call, mem_of_getElem? found, rfl⟩, trivial⟩
  | returnVote i k =>
    rw [events]
    cases found : c.voteCalls[i]? with
    | none => trivial
    | some call =>
      simp only [Option.bind_some]
      split_ifs
      · cases call.replies[k]? with
        | none => trivial
        | some reply => exact ⟨trivial, trivial⟩
      · trivial
  | failVote i => trivial
  | receiveVote i =>
    rw [events]
    cases found : c.rounds[i]? with
    | none => trivial
    | some round =>
      simp only [Option.bind_some]
      split_ifs with wins
      · rcases wins with ⟨decided, candidate, current⟩
        refine ⟨⟨candidate, ?_⟩, trivial⟩
        rw [show (c.world.nodes round.node).term = _ from current]
        exact counting.majority found decided
      · trivial
  | voteTimeout i =>
    rw [events]
    cases c.rounds[i]? with
    | none => trivial
    | some round =>
      simp only [Option.bind_some]
      split_ifs
      · exact ⟨trivial, trivial⟩
      · trivial
  | heartbeat node =>
    rw [events]
    split_ifs with leads
    · exact ⟨leads, trivial⟩
    · trivial
  | appendEntry node command =>
    rw [events]
    split_ifs with leads
    · exact ⟨trivial, trivial⟩
    · refine ⟨trivial, ?_, trivial⟩
      change ((c.world.setNode node ((c.nodes node).appendEntry command).1).nodes node).state = _
      rw [World.nodes_setNode_self, Node.appendEntry_state]
      exact leads
    · trivial
  | deliverAppend i =>
    rw [events]
    cases found : c.appendCalls[i]? with
    | none => trivial
    | some call => exact ⟨⟨call, mem_of_getElem? found, rfl⟩, trivial⟩
  | returnAppend i k =>
    rw [events]
    cases found : c.appendCalls[i]? with
    | none => trivial
    | some call =>
      simp only [Option.bind_some]
      split_ifs
      · cases answered : call.replies[k]? with
        | none => trivial
        | some reply =>
          have here := mem_of_getElem? found
          rcases counting.appends call here with ⟨leader, apart⟩
          exact ⟨⟨leader, apart, fun success =>
            ⟨call, here, rfl, reply, mem_of_getElem? answered, success⟩⟩, trivial⟩
      · trivial
  | failAppend i =>
    rw [events]
    cases c.appendCalls[i]? with
    | none => trivial
    | some call =>
      simp only [Option.bind_some]
      split_ifs
      · exact ⟨trivial, trivial⟩
      · trivial
  | takeSnapshot node index full => exact ⟨trivial, trivial⟩
  | deliverSnapshot i full =>
    rw [events]
    cases found : c.snapshotCalls[i]? with
    | none => trivial
    | some call => exact ⟨⟨call, mem_of_getElem? found, rfl⟩, trivial⟩
  | returnSnapshot i k =>
    rw [events]
    cases c.snapshotCalls[i]? with
    | none => trivial
    | some call =>
      simp only [Option.bind_some]
      split_ifs
      · cases call.replies[k]? with
        | none => trivial
        | some reply => exact ⟨trivial, trivial⟩
      · trivial
  | failSnapshot i => trivial
  | restart node => exact ⟨trivial, trivial⟩

end

section Recorded

variable {Record : Type} {grows : Record → Record → Prop} {Inv : Record → World n → Prop}
  {condition : World n → Event n → Prop}

variable (refl : ∀ record, grows record record)
  (trans : ∀ first second third, grows first second → grows second third → grows first third)
  (preserved : ∀ record w event, Inv record w → w.Allowed event ∧ condition w event →
    ∃ later, grows record later ∧ Inv later (w.next event))
include refl trans preserved

/-- What every event of the network preserves, with a record that only grows, a step of the cluster
preserves. -/
theorem recorded_step (record : Record) (counting : Counting c) (initial : Inv record c.world) (input : Input n)
    (guarded : Guarded World.next condition c.world (c.events input)) :
    ∃ later, grows record later ∧ Inv later (c.step input).world := by
  have allowed := Guarded.and _ _ (counting.allowed input) guarded
  rw [world_step]
  exact Guarded.recorded refl trans preserved record c.world _ initial allowed

theorem recorded_run {meets : Cluster n → Input n → Prop}
    (guards : ∀ c input, meets c input → Guarded World.next condition c.world (c.events input))
    (record : Record) (counting : Counting c) (initial : Inv record c.world) (inputs : List (Input n))
    (guarded : Guarded Cluster.step meets c inputs) :
    ∃ later, grows record later ∧ Counting (run Cluster.step c inputs) ∧
      Inv later (run Cluster.step c inputs).world := by
  have stepwise : ∀ record (c : Cluster n) input, Counting c ∧ Inv record c.world → meets c input →
      ∃ later, grows record later ∧ Counting (c.step input) ∧ Inv later (c.step input).world := by
    intro record c input holds met
    rcases holds.1.recorded_step refl trans preserved record holds.2 input (guards c input met) with
      ⟨later, grown, reached⟩
    exact ⟨later, grown, holds.1.step input, reached⟩
  exact Guarded.recorded refl trans stepwise record c inputs ⟨counting, initial⟩ guarded

end Recorded

end Counting

end Cluster

end KairosFlux.Raft
