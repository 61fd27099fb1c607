import Mathlib.Data.Set.Insert
import KairosFlux.Lib.TermLogs
import KairosFlux.Raft.Cluster

/-! The group as nodes that exchange messages without order: the requests that were made, the votes
and acknowledgements that were given, and no goroutines. Every step of the calls in
`KairosFlux.Raft.Cluster` is a step of this network, or none. -/

namespace KairosFlux.Raft

open Lib List Function Node

/-- A request is paired with the node it goes to. `granted` and `acked` are the requests that were
answered with a vote and with success. -/
@[ext]
structure World (n : Nat) where
  nodes : Fin n → Node n
  asked : Set (Fin n × RequestVoteArgs n)
  granted : Set (Fin n × RequestVoteArgs n)
  sent : Set (Fin n × AppendEntriesArgs n)
  acked : Set (Fin n × AppendEntriesArgs n)
  installs : Set (Fin n × InstallSnapshotArgs n)

inductive Event (n : Nat)
  | timeout (node : Fin n)
  | vote (node : Fin n) (args : RequestVoteArgs n)
  | voteReply (node : Fin n) (reply : RequestVoteReply)
  | win (node : Fin n)
  | abandon (node : Fin n)
  | replicate (node : Fin n)
  | client (node : Fin n) (command : Bytes)
  | append (node : Fin n) (args : AppendEntriesArgs n)
  | appendReply (node peer : Fin n) (args : AppendEntriesArgs n) (reply : AppendEntriesReply)
  | appendError (node peer : Fin n)
  | takeSnapshot (node : Fin n) (index : Int) (full : Bool)
  | install (node : Fin n) (args : InstallSnapshotArgs n) (full : Bool)
  | snapshotReply (node peer : Fin n) (reply : InstallSnapshotReply)
  | restart (node : Fin n)

section Modified

variable {Item : Type} {items : List Item} {i : Nat} {change : Item → Item} {P : Item → Prop}

theorem mem_modify {item : Item} (member : item ∈ items.modify i change) :
    item ∈ items ∨ ∃ old, items[i]? = some old ∧ item = change old := by
  rcases mem_iff_getElem?.mp member with ⟨j, found⟩
  rw [List.getElem?_modify] at found
  rcases Option.map_eq_some_iff.mp found with ⟨old, place, rfl⟩
  by_cases here : i = j
  · rw [if_pos here]
    exact .inr ⟨old, here ▸ place, rfl⟩
  · rw [if_neg here]
    exact .inl (mem_of_getElem? place)

theorem exists_modify_of_iff (same : ∀ item, P (change item) ↔ P item) :
    (∃ item ∈ items.modify i change, P item) ↔ ∃ item ∈ items, P item := by
  constructor
  · rintro ⟨item, member, holds⟩
    rcases mem_modify member with old | ⟨old, place, rfl⟩
    · exact ⟨item, old, holds⟩
    · exact ⟨old, mem_of_getElem? place, (same old).mp holds⟩
  · rintro ⟨item, member, holds⟩
    rcases mem_iff_getElem?.mp member with ⟨j, place⟩
    have found : (items.modify i change)[j]? = some (if i = j then change item else item) := by
      rw [List.getElem?_modify, place]
      rfl
    refine ⟨_, mem_of_getElem? found, ?_⟩
    split_ifs
    · exact (same item).mpr holds
    · exact holds

theorem exists_modify_of_imp {changed : Item} (found : items[i]? = some changed)
    (keeps : P changed → P (change changed)) :
    (∃ item ∈ items.modify i change, P item) ↔ (∃ item ∈ items, P item) ∨ P (change changed) := by
  have place : (items.modify i change)[i]? = some (change changed) := by
    rw [List.getElem?_modify_eq, found]
    rfl
  constructor
  · rintro ⟨item, member, holds⟩
    rcases mem_modify member with old | ⟨old, here, rfl⟩
    · exact .inl ⟨item, old, holds⟩
    · obtain rfl := Option.some.inj (found.symm.trans here)
      exact .inr holds
  · rintro (⟨item, member, holds⟩ | holds)
    · rcases mem_iff_getElem?.mp member with ⟨j, there⟩
      by_cases here : i = j
      · subst here
        obtain rfl := Option.some.inj (found.symm.trans there)
        exact ⟨_, mem_of_getElem? place, keeps holds⟩
      · have kept : (items.modify i change)[j]? = some item := by
          rw [List.getElem?_modify, there]
          exact congrArg some (if_neg here)
        exact ⟨item, mem_of_getElem? kept, holds⟩
    · exact ⟨_, mem_of_getElem? place, holds⟩

end Modified

namespace World

variable {n : Nat} (w : World n)

def setNode (node : Fin n) (r : Node n) : World n :=
  { w with nodes := update w.nodes node r }

@[simp] theorem nodes_setNode_self (node : Fin n) (r : Node n) : (w.setNode node r).nodes node = r :=
  update_self _ _ _

theorem nodes_setNode_of_ne {node other : Fin n} (different : other ≠ node) (r : Node n) :
    (w.setNode node r).nodes other = w.nodes other :=
  update_of_ne different _ _

@[elab_as_elim]
theorem forall_setNode {node : Fin n} {r : Node n} {motive : Fin n → Node n → Prop} (any : Fin n)
    (own : motive node r) (others : ∀ other, other ≠ node → motive other (w.nodes other)) :
    motive any ((w.setNode node r).nodes any) :=
  (forall_update_iff w.nodes motive).mpr ⟨own, others⟩ any

/-- What holds between a node and itself, and between the old and the new state of the node that is
set, holds for every node. -/
theorem nodes_setNode_rel (related : Node n → Node n → Prop) (refl : ∀ r, related r r)
    {node : Fin n} {r : Node n} (own : related (w.nodes node) r) (other : Fin n) :
    related (w.nodes other) ((w.setNode node r).nodes other) :=
  w.forall_setNode other own fun other _ => refl (w.nodes other)

def Votes (voter candidate : Fin n) (T : Nat) : Prop :=
  ∃ args, (voter, args) ∈ w.granted ∧ args.candidateID = candidate ∧ args.term = T

def next (w : World n) : Event n → World n
  | .timeout node =>
    let out := (w.nodes node).startElection node
    { w.setNode node out.1 with
      asked := w.asked ∪ { ask | ask.1 ≠ node ∧ out.2 = some ask.2 } }
  | .vote node args =>
    let out := (w.nodes node).requestVote args
    { w.setNode node out.1 with
      granted := w.granted ∪ { vote | vote = (node, args) ∧ out.2.voteGranted = true } }
  | .voteReply node reply => w.setNode node ((w.nodes node).handleVoteReply reply).1
  | .win node => w.setNode node (w.nodes node).becomeLeader
  | .abandon node => w.setNode node ((w.nodes node).abandonElection (w.nodes node).term)
  | .replicate node =>
    { w with
      sent := w.sent ∪ { send | send.1 ≠ node ∧
        (w.nodes node).replicateTo node send.1 = .entries send.2 }
      installs := w.installs ∪ { send | send.1 ≠ node ∧
        (w.nodes node).replicateTo node send.1 = .snapshot send.2 } }
  | .client node command => w.setNode node ((w.nodes node).appendEntry command).1
  | .append node args =>
    let out := (w.nodes node).appendEntries args
    { w.setNode node out.1 with
      acked := w.acked ∪ { ack | ack = (node, args) ∧ out.2.success = true } }
  | .appendReply node peer args reply =>
    w.setNode node ((w.nodes node).handleAppendReply node peer args reply)
  | .appendError node peer => w.setNode node ((w.nodes node).handleAppendError peer)
  | .takeSnapshot node index full => w.setNode node ((w.nodes node).takeSnapshot index full)
  | .install node args full => w.setNode node ((w.nodes node).installSnapshot args full).1
  | .snapshotReply node peer reply => w.setNode node ((w.nodes node).handleSnapshotReply peer reply)
  | .restart node => w.setNode node (w.nodes node).restart

/-- Only requests that were made arrive, an acknowledgement was given, and a candidate wins with the
votes of a majority, its own among them. -/
def Allowed : Event n → Prop
  | .vote node args => (node, args) ∈ w.asked
  | .win node => (w.nodes node).state = .candidate ∧ ∃ group : Finset (Fin n), Majority group ∧
      ∀ voter ∈ group, voter = node ∨ w.Votes voter node (w.nodes node).term
  | .replicate node => (w.nodes node).state = .leader
  | .append node args => (node, args) ∈ w.sent
  | .appendReply node peer args reply =>
    args.leaderID = node ∧ peer ≠ node ∧ (reply.success = true → (peer, args) ∈ w.acked)
  | .install node args _ => (node, args) ∈ w.installs
  | _ => True

end World

/-- The next turn of `awaitVotes` ends it with a majority. -/
def Round.Decided {n : Nat} (round : Round n) : Prop :=
  round.returned = false ∧ (n = 1 ∨ round.received < n - 1 ∧ ∃ rest, round.voteCh = true :: rest ∧
    n / 2 < round.votes + 1)

instance {n : Nat} (round : Round n) : Decidable round.Decided :=
  have : Decidable (∃ rest, round.voteCh = true :: rest ∧ n / 2 < round.votes + 1) :=
    decidable_of_iff (round.voteCh.head? = some true ∧ n / 2 < round.votes + 1)
      (by simp [List.head?_eq_some_iff])
  inferInstanceAs (Decidable (_ ∧ _))

namespace Cluster

variable {n : Nat} (c : Cluster n)

def world : World n where
  nodes := c.nodes
  asked := { ask | ∃ call ∈ c.voteCalls, ask = (call.peer, call.args.args) }
  granted := { vote | ∃ call ∈ c.voteCalls, vote = (call.peer, call.args.args) ∧
    ∃ reply ∈ call.replies, reply.voteGranted = true }
  sent := { send | ∃ call ∈ c.appendCalls, send = (call.peer, call.args) }
  acked := { ack | ∃ call ∈ c.appendCalls, ack = (call.peer, call.args) ∧
    ∃ reply ∈ call.replies, reply.success = true }
  installs := { send | ∃ call ∈ c.snapshotCalls, send = (call.peer, call.args) }

def events : Input n → List (Event n)
  | .electionTimeout node => [.timeout node]
  | .deliverVote i =>
    (c.voteCalls[i]?.map fun call => Event.vote call.peer call.args.args).toList
  | .returnVote i k =>
    (c.voteCalls[i]?.bind fun call => if call.pending then
      call.replies[k]?.map (Event.voteReply call.caller) else none).toList
  | .failVote _ => []
  | .receiveVote i =>
    (c.rounds[i]?.bind fun round =>
      if round.Decided ∧ (c.nodes round.node).state = .candidate ∧
          (c.nodes round.node).term = round.electionTerm then
        some (Event.win round.node)
      else none).toList
  | .voteTimeout i =>
    (c.rounds[i]?.bind fun round =>
      if round.returned = false ∧ round.received < n - 1 ∧
          (c.nodes round.node).term = round.electionTerm then
        some (Event.abandon round.node)
      else none).toList
  | .heartbeat node => if (c.nodes node).state = .leader then [.replicate node] else []
  | .appendEntry node command =>
    if (c.nodes node).state = .leader then
      if n = 1 then [.client node command] else [.client node command, .replicate node]
    else []
  | .deliverAppend i =>
    (c.appendCalls[i]?.map fun call => Event.append call.peer call.args).toList
  | .returnAppend i k =>
    (c.appendCalls[i]?.bind fun call => if call.pending then
      call.replies[k]?.map (Event.appendReply call.caller call.peer call.args) else none).toList
  | .failAppend i =>
    (c.appendCalls[i]?.bind fun call => if call.pending then
      some (Event.appendError call.caller call.peer) else none).toList
  | .takeSnapshot node index full => [.takeSnapshot node index full]
  | .deliverSnapshot i full =>
    (c.snapshotCalls[i]?.map fun call => Event.install call.peer call.args full).toList
  | .returnSnapshot i k =>
    (c.snapshotCalls[i]?.bind fun call => if call.pending then
      call.replies[k]?.map (Event.snapshotReply call.caller call.peer) else none).toList
  | .failSnapshot _ => []
  | .restart node => [.restart node]

variable {Reply Args : Type} (node : Fin n)

theorem exists_answered {Request : Type} {calls : List (Call n Args Reply)} {i : Nat}
    {call : Call n Args Reply} {reply : Reply} {request : Request}
    (key : Call n Args Reply → Request) (good : Reply → Prop) (found : calls[i]? = some call)
    (same : ∀ call, key (Call.answer reply call) = key call) :
    (∃ call ∈ calls.modify i (Call.answer reply), request = key call ∧ ∃ r ∈ call.replies, good r) ↔
      (∃ call ∈ calls, request = key call ∧ ∃ r ∈ call.replies, good r) ∨
        request = key call ∧ good reply := by
  rw [exists_modify_of_imp found]
  · constructor
    · rintro (old | ⟨named, r, member, holds⟩)
      · exact .inl old
      · rcases mem_append.mp member with before | new
        · exact .inl ⟨call, mem_of_getElem? found, named.trans (same call), r, before, holds⟩
        · rw [mem_singleton.mp new] at holds
          exact .inr ⟨named.trans (same call), holds⟩
    · rintro (old | ⟨named, holds⟩)
      · exact .inl old
      · exact .inr ⟨named.trans (same call).symm, reply,
          mem_append_right _ (.head _), holds⟩
  · rintro ⟨named, r, member, holds⟩
    exact ⟨named.trans (same call).symm, r, mem_append_left _ member, holds⟩

theorem exists_answered_append {Request : Type} {calls : List (Call n Args Reply)}
    {request : Request} (key : Call n Args Reply → Request) (good : Reply → Prop)
    (new : List (Call n Args Reply)) (silent : ∀ call ∈ new, call.replies = []) :
    (∃ call ∈ calls ++ new, request = key call ∧ ∃ r ∈ call.replies, good r) ↔
      ∃ call ∈ calls, request = key call ∧ ∃ r ∈ call.replies, good r := by
  constructor
  · rintro ⟨call, member, named, r, answered, holds⟩
    rcases mem_append.mp member with old | fresh
    · exact ⟨call, old, named, r, answered, holds⟩
    · rw [silent call fresh] at answered
      cases answered
  · rintro ⟨call, member, rest⟩
    exact ⟨call, mem_append_left _ member, rest⟩

theorem world_deliverVote (i : Nat) :
    (c.deliverVote i).world = run World.next c.world (c.events (.deliverVote i)) := by
  rw [deliverVote, events]
  cases found : c.voteCalls[i]? with
  | none => rfl
  | some call =>
    ext1
    case asked => exact Set.ext fun ask => exists_modify_of_iff fun _ => Iff.rfl
    case granted => exact Set.ext fun vote => exists_answered _ _ found fun _ => rfl
    all_goals rfl

theorem world_settleVote (i : Nat) (call : Call n (Ballot n) RequestVoteReply) (granted : Bool) :
    (c.settleVote i call granted).world = c.world := by
  ext1
  case asked => exact Set.ext fun ask => exists_modify_of_iff fun _ => Iff.rfl
  case granted => exact Set.ext fun vote => exists_modify_of_iff fun _ => Iff.rfl
  all_goals rfl

theorem world_settleAppend (i : Nat) (node : Fin n) (r : Node n) :
    (c.settleAppend i node r).world = c.world.setNode node r := by
  ext1
  case sent => exact Set.ext fun send => exists_modify_of_iff fun _ => Iff.rfl
  case acked => exact Set.ext fun ack => exists_modify_of_iff fun _ => Iff.rfl
  all_goals rfl

theorem world_returnVote (i k : Nat) :
    (c.returnVote i k).world = run World.next c.world (c.events (.returnVote i k)) := by
  rw [returnVote, events]
  cases c.voteCalls[i]? with
  | none => rfl
  | some call =>
    simp only [Option.bind_some]
    split_ifs
    · cases call.replies[k]? with
      | none => rfl
      | some reply => exact world_settleVote _ i call _
    · rfl

theorem world_failVote (i : Nat) : (c.failVote i).world = c.world := by
  rw [failVote]
  cases c.voteCalls[i]? with
  | none => rfl
  | some call =>
    simp only
    split_ifs
    · exact world_settleVote c i call false
    · rfl

/-- A turn of `awaitVotes` ends it, or takes one result, or does nothing. -/
theorem receiveVote_cases {i : Nat} {round : Round n} (found : c.rounds[i]? = some round) :
    round.Decided ∧ c.receiveVote i = c.finishRound i round
        ((c.nodes round.node).wonAsCandidate round.electionTerm) ∨
      ¬ round.Decided ∧ (c.receiveVote i = c ∨ ∃ granted rest, round.voteCh = granted :: rest ∧
        c.receiveVote i = { c with rounds := c.rounds.modify i fun round =>
              { round with
                voteCh := rest
                votes := if granted then round.votes + 1 else round.votes
                received := round.received + 1 } }) := by
  rw [receiveVote, found]
  by_cases returned : round.returned = true
  · right
    simp [returned, Round.Decided]
  · by_cases alone : n = 1
    · left
      simp [returned, alone, Round.Decided]
    · by_cases waiting : round.received < n - 1
      · cases channel : round.voteCh with
        | nil =>
          right
          simp [returned, alone, channel, waiting, Round.Decided]
        | cons granted rest =>
          by_cases wins : granted = true ∧ n / 2 < round.votes + 1
          · left
            simp [returned, alone, channel, waiting, Round.Decided, wins.1, wins.2]
          · right
            constructor
            · rintro ⟨_, single | ⟨_, others, same, enough⟩⟩
              · exact alone single
              · rw [channel, List.cons.injEq] at same
                exact wins ⟨same.1, enough⟩
            · right
              refine ⟨granted, rest, rfl, ?_⟩
              simp only [returned, alone, waiting, channel, if_neg wins, if_true, if_false,
                Bool.false_eq_true]
      · right
        simp [returned, alone, waiting, Round.Decided]

theorem setNode_self (w : World n) (node : Fin n) : w.setNode node (w.nodes node) = w := by
  rw [World.setNode, update_eq_self]

theorem world_receiveVote (i : Nat) :
    (c.receiveVote i).world = run World.next c.world (c.events (.receiveVote i)) := by
  cases found : c.rounds[i]? with
  | none =>
    rw [receiveVote, events, found]
    rfl
  | some round =>
    rw [events, found, Option.bind_some]
    rcases c.receiveVote_cases found with ⟨decided, finished⟩ | ⟨open_, same | ⟨_, _, _, taken⟩⟩
    · rw [finished]
      by_cases standing : (c.nodes round.node).state = .candidate ∧
          (c.nodes round.node).term = round.electionTerm
      · rw [if_pos ⟨decided, standing⟩, wonAsCandidate, if_pos standing]
        rfl
      · rw [if_neg fun both => standing both.2, wonAsCandidate, if_neg standing]
        exact setNode_self c.world round.node
    · rw [same, if_neg fun both => open_ both.1]
      rfl
    · rw [taken, if_neg fun both => open_ both.1]
      rfl

theorem world_voteTimeout (i : Nat) :
    (c.voteTimeout i).world = run World.next c.world (c.events (.voteTimeout i)) := by
  rw [voteTimeout, events]
  cases c.rounds[i]? with
  | none => rfl
  | some round =>
    simp only [Option.bind_some]
    by_cases waiting : round.returned = false ∧ round.received < n - 1
    · rw [if_pos waiting]
      by_cases current : (c.nodes round.node).term = round.electionTerm
      · rw [if_pos ⟨waiting.1, waiting.2, current⟩, ← current]
        rfl
      · rw [if_neg fun all => current all.2.2, abandonElection,
          if_neg fun both => current both.2]
        exact setNode_self c.world round.node
    · rw [if_neg waiting, if_neg fun all => waiting ⟨all.1, all.2.1⟩]
      rfl

theorem mem_others {me peer : Fin n} : peer ∈ others me ↔ peer ≠ me := by
  simp [others]

theorem world_electionTimeout :
    (c.electionTimeout node).world = run World.next c.world (c.events (.electionTimeout node)) := by
  have next : run World.next c.world (c.events (.electionTimeout node)) =
      c.world.next (.timeout node) := rfl
  rw [next, electionTimeout, World.next, startElection]
  change _ = { c.world.setNode node ((c.nodes node).startElection node).1 with
    asked := c.world.asked ∪ { ask | ask.1 ≠ node ∧ ((c.nodes node).startElection node).2 = some ask.2 } }
  rw [startElection]
  by_cases leads : (c.nodes node).state = .leader
  · simp only [if_pos leads]
    ext1
    case nodes => exact (congrArg World.nodes (setNode_self c.world node)).symm
    case asked => simp
    all_goals rfl
  · simp only [if_neg leads]
    ext1
    case nodes => rfl
    case asked =>
      apply Set.ext
      rintro ⟨peer, args⟩
      simp only [world, Set.mem_union, Set.mem_ofPred_eq, mem_append, mem_map, mem_others,
        or_and_right, exists_or, Call.new, Prod.mk.injEq, Option.some.injEq]
      apply or_congr_right
      constructor
      · rintro ⟨_, ⟨other, different, rfl⟩, rfl, rfl⟩
        exact ⟨different, rfl⟩
      · rintro ⟨different, rfl⟩
        exact ⟨_, ⟨peer, different, rfl⟩, rfl, rfl⟩
    case granted => exact Set.ext fun vote => exists_answered_append _ _ _ (by simp [Call.new])
    all_goals rfl

theorem exists_replicated {calls : List (Call n Args Reply)} {node : Fin n}
    {request : Fin n × Args} (out : Fin n → Option Args) :
    (∃ call ∈ calls ++ (others node).filterMap fun peer =>
        (out peer).map fun args => Call.new node args peer, request = (call.peer, call.args)) ↔
      (∃ call ∈ calls, request = (call.peer, call.args)) ∨
        request.1 ≠ node ∧ out request.1 = some request.2 := by
  rcases request with ⟨peer, args⟩
  simp only [mem_append, or_and_right, exists_or, mem_filterMap, mem_others,
    Option.map_eq_some_iff, Prod.mk.injEq]
  apply or_congr_right
  constructor
  · rintro ⟨call, ⟨other, different, sent, asked, rfl⟩, rfl, rfl⟩
    exact ⟨different, asked⟩
  · rintro ⟨different, asked⟩
    exact ⟨Call.new node args peer, ⟨peer, different, args, asked, rfl⟩, rfl, rfl⟩

theorem world_replicateLog : (c.replicateLog node).world = c.world.next (.replicate node) := by
  ext1
  case nodes => rfl
  case asked => rfl
  case granted => rfl
  case sent =>
    apply Set.ext
    intro send
    refine (exists_replicated fun peer => ((c.nodes node).replicateTo node peer).entries?).trans ?_
    rw [Node.Outgoing.entries?_eq_some]
    rfl
  case acked =>
    refine Set.ext fun ack => exists_answered_append _ _ _ fun call member => ?_
    rcases mem_filterMap.mp member with ⟨peer, _, made⟩
    rcases Option.map_eq_some_iff.mp made with ⟨args, _, rfl⟩
    rfl
  case installs =>
    apply Set.ext
    intro send
    refine (exists_replicated fun peer => ((c.nodes node).replicateTo node peer).snapshot?).trans ?_
    rw [Node.Outgoing.snapshot?_eq_some]
    rfl

theorem world_heartbeat :
    (c.heartbeat node).world = run World.next c.world (c.events (.heartbeat node)) := by
  rw [heartbeat, events]
  split_ifs
  · exact c.world_replicateLog node
  · rfl

theorem world_appendEntry (command : Bytes) : (c.appendEntry node command).world =
      run World.next c.world (c.events (.appendEntry node command)) := by
  rw [appendEntry, events]
  split_ifs
  · rfl
  · exact world_replicateLog _ node
  · rfl

theorem world_deliverAppend (i : Nat) :
    (c.deliverAppend i).world = run World.next c.world (c.events (.deliverAppend i)) := by
  rw [deliverAppend, events]
  cases found : c.appendCalls[i]? with
  | none => rfl
  | some call =>
    ext1
    case sent => exact Set.ext fun send => exists_modify_of_iff fun _ => Iff.rfl
    case acked => exact Set.ext fun ack => exists_answered _ _ found fun _ => rfl
    all_goals rfl

theorem world_returnAppend (i k : Nat) :
    (c.returnAppend i k).world = run World.next c.world (c.events (.returnAppend i k)) := by
  rw [returnAppend, events]
  cases c.appendCalls[i]? with
  | none => rfl
  | some call =>
    simp only [Option.bind_some]
    split_ifs
    · cases call.replies[k]? with
      | none => rfl
      | some reply => exact world_settleAppend c i call.caller _
    · rfl

theorem world_failAppend (i : Nat) :
    (c.failAppend i).world = run World.next c.world (c.events (.failAppend i)) := by
  rw [failAppend, events]
  cases c.appendCalls[i]? with
  | none => rfl
  | some call =>
    simp only [Option.bind_some]
    split_ifs
    · exact world_settleAppend c i call.caller _
    · rfl

theorem world_deliverSnapshot (i : Nat) (full : Bool) : (c.deliverSnapshot i full).world =
      run World.next c.world (c.events (.deliverSnapshot i full)) := by
  rw [deliverSnapshot, events]
  cases c.snapshotCalls[i]? with
  | none => rfl
  | some call =>
    ext1
    case installs => exact Set.ext fun send => exists_modify_of_iff fun _ => Iff.rfl
    all_goals rfl

theorem world_returnSnapshot (i k : Nat) :
    (c.returnSnapshot i k).world = run World.next c.world (c.events (.returnSnapshot i k)) := by
  rw [returnSnapshot, events]
  cases c.snapshotCalls[i]? with
  | none => rfl
  | some call =>
    simp only [Option.bind_some]
    split_ifs
    · cases call.replies[k]? with
      | none => rfl
      | some reply =>
        ext1
        case installs => exact Set.ext fun send => exists_modify_of_iff fun _ => Iff.rfl
        all_goals rfl
    · rfl

theorem world_failSnapshot (i : Nat) : (c.failSnapshot i).world = c.world := by
  ext1
  case installs => exact Set.ext fun send => exists_modify_of_iff fun _ => Iff.rfl
  all_goals rfl

theorem exists_closed {calls : List (Call n Args Reply)} {node : Fin n}
    {P : Call n Args Reply → Prop} (same : ∀ call, P (Call.close call) ↔ P call) :
    (∃ call ∈ calls.map fun call => if call.caller = node then call.close else call, P call) ↔
      ∃ call ∈ calls, P call := by
  simp only [mem_map, exists_exists_and_eq_and]
  apply exists_congr
  intro call
  split_ifs
  · rw [same]
  · rfl

theorem world_restart :
    (c.restart node).world = run World.next c.world (c.events (.restart node)) := by
  ext1
  case nodes => rfl
  all_goals exact Set.ext fun _ => exists_closed fun _ => Iff.rfl

theorem world_step (input : Input n) :
    (c.step input).world = run World.next c.world (c.events input) := by
  cases input with
  | electionTimeout node => exact c.world_electionTimeout node
  | deliverVote i => exact c.world_deliverVote i
  | returnVote i k => exact c.world_returnVote i k
  | failVote i => exact c.world_failVote i
  | receiveVote i => exact c.world_receiveVote i
  | voteTimeout i => exact c.world_voteTimeout i
  | heartbeat node => exact c.world_heartbeat node
  | appendEntry node command => exact c.world_appendEntry node command
  | deliverAppend i => exact c.world_deliverAppend i
  | returnAppend i k => exact c.world_returnAppend i k
  | failAppend i => exact c.world_failAppend i
  | takeSnapshot node index full => rfl
  | deliverSnapshot i full => exact c.world_deliverSnapshot i full
  | returnSnapshot i k => exact c.world_returnSnapshot i k
  | failSnapshot i => exact c.world_failSnapshot i
  | restart node => exact c.world_restart node

end Cluster

end KairosFlux.Raft
