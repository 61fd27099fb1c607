import KairosFlux.Lib.Runs
import KairosFlux.Raft.Node

/-! The nodes of a group with the calls between them: every call is made by a goroutine of its own,
and the votes of an election are counted by one more goroutine (`startElection` and `awaitVotes` in
`raft/raft_election.go`, `replicateLog` in `raft/raft_replication.go`). -/

namespace KairosFlux.Raft

open Lib

/-- A remote call. The request can reach the peer at any time, after an error too, and more than once
when the connection is redialled; the caller takes one of the replies or an error and is then no
longer waiting. -/
structure Call (n : Nat) (Args Reply : Type) where
  caller : Fin n
  peer : Fin n
  args : Args
  replies : List Reply
  pending : Bool

namespace Call

variable {n : Nat} {Args Reply : Type}

def new (caller : Fin n) (args : Args) (peer : Fin n) : Call n Args Reply :=
  ⟨caller, peer, args, [], true⟩

def answer (reply : Reply) (call : Call n Args Reply) : Call n Args Reply :=
  { call with replies := call.replies ++ [reply] }

def close (call : Call n Args Reply) : Call n Args Reply := { call with pending := false }

end Call

/-- A request for a vote with the number of the election whose channel takes the result. -/
structure Ballot (n : Nat) where
  round : Nat
  args : RequestVoteArgs n

/-- A run of `awaitVotes`: the channel, the votes, how many results were taken, and whether it has
returned. -/
structure Round (n : Nat) where
  node : Fin n
  electionTerm : Nat
  voteCh : List Bool
  votes : Nat
  received : Nat
  returned : Bool

structure Cluster (n : Nat) where
  nodes : Fin n → Node n
  rounds : List (Round n)
  voteCalls : List (Call n (Ballot n) RequestVoteReply)
  appendCalls : List (Call n (AppendEntriesArgs n) AppendEntriesReply)
  snapshotCalls : List (Call n (InstallSnapshotArgs n) InstallSnapshotReply)

/-- Calls, replies and elections are named by their position in the lists. -/
inductive Input (n : Nat)
  | electionTimeout (node : Fin n)
  | deliverVote (call : Nat)
  | returnVote (call reply : Nat)
  | failVote (call : Nat)
  | receiveVote (round : Nat)
  | voteTimeout (round : Nat)
  | heartbeat (node : Fin n)
  | appendEntry (node : Fin n) (command : Bytes)
  | deliverAppend (call : Nat)
  | returnAppend (call reply : Nat)
  | failAppend (call : Nat)
  | takeSnapshot (node : Fin n) (index : Int) (full : Bool)
  | deliverSnapshot (call : Nat) (full : Bool)
  | returnSnapshot (call reply : Nat)
  | failSnapshot (call : Nat)
  | restart (node : Fin n)

/-- The other nodes, as `range r.peers` visits them. -/
def others {n : Nat} (me : Fin n) : List (Fin n) := (List.finRange n).filter fun peer => peer ≠ me

namespace Cluster

variable {n : Nat}

def new : Cluster n := ⟨fun _ => Node.new, [], [], [], []⟩

variable (c : Cluster n)

def setNode (node : Fin n) (r : Node n) : Cluster n :=
  { c with nodes := Function.update c.nodes node r }

def electionTimeout (node : Fin n) : Cluster n :=
  match (c.nodes node).startElection node with
  | (_, none) => c
  | (r, some args) =>
    { c.setNode node r with
      rounds := c.rounds ++ [⟨node, args.term, [], 1, 0, false⟩]
      voteCalls := c.voteCalls ++ (others node).map (Call.new node ⟨c.rounds.length, args⟩) }

def deliverVote (i : Nat) : Cluster n :=
  match c.voteCalls[i]? with
  | none => c
  | some call =>
    let out := (c.nodes call.peer).requestVote call.args.args
    { c.setNode call.peer out.1 with voteCalls := c.voteCalls.modify i (Call.answer out.2) }

/-- The goroutine of a vote call puts its result on the channel and ends. -/
def settleVote (i : Nat) (call : Call n (Ballot n) RequestVoteReply) (granted : Bool) : Cluster n :=
  { c with
    rounds := c.rounds.modify call.args.round fun round =>
      { round with voteCh := round.voteCh ++ [granted] }
    voteCalls := c.voteCalls.modify i Call.close }

def returnVote (i k : Nat) : Cluster n :=
  match c.voteCalls[i]? with
  | none => c
  | some call =>
    if call.pending then
      match call.replies[k]? with
      | none => c
      | some reply =>
        let out := (c.nodes call.caller).handleVoteReply reply
        (c.setNode call.caller out.1).settleVote i call out.2
    else c

def failVote (i : Nat) : Cluster n :=
  match c.voteCalls[i]? with
  | none => c
  | some call => if call.pending then c.settleVote i call false else c

/-- `awaitVotes` has its majority. -/
def finishRound (i : Nat) (round : Round n) (r : Node n) : Cluster n :=
  { c.setNode round.node r with
    rounds := c.rounds.modify i fun round => { round with returned := true } }

/-- One turn of the loop of `awaitVotes`. A single node wins without a vote of others. -/
def receiveVote (i : Nat) : Cluster n :=
  match c.rounds[i]? with
  | none => c
  | some round =>
    let won := (c.nodes round.node).wonAsCandidate round.electionTerm
    if round.returned then c
    else if n = 1 then c.finishRound i round won
    else if round.received < n - 1 then
      match round.voteCh with
      | [] => c
      | granted :: rest =>
        if granted ∧ n / 2 < round.votes + 1 then c.finishRound i round won
        else
          { c with
            rounds := c.rounds.modify i fun round =>
              { round with
                voteCh := rest
                votes := if granted then round.votes + 1 else round.votes
                received := round.received + 1 } }
    else c

def voteTimeout (i : Nat) : Cluster n :=
  match c.rounds[i]? with
  | none => c
  | some round =>
    if round.returned = false ∧ round.received < n - 1 then
      c.finishRound i round ((c.nodes round.node).abandonElection round.electionTerm)
    else c

def replicateLog (node : Fin n) : Cluster n :=
  let r := c.nodes node
  { c with
    appendCalls := c.appendCalls ++ (others node).filterMap fun peer =>
      (r.replicateTo node peer).entries?.map fun args => Call.new node args peer
    snapshotCalls := c.snapshotCalls ++ (others node).filterMap fun peer =>
      (r.replicateTo node peer).snapshot?.map fun args => Call.new node args peer }

def heartbeat (node : Fin n) : Cluster n :=
  if (c.nodes node).state = .leader then c.replicateLog node else c

def appendEntry (node : Fin n) (command : Bytes) : Cluster n :=
  if (c.nodes node).state = .leader then
    let c := c.setNode node ((c.nodes node).appendEntry command).1
    if n = 1 then c else c.replicateLog node
  else c

def deliverAppend (i : Nat) : Cluster n :=
  match c.appendCalls[i]? with
  | none => c
  | some call =>
    let out := (c.nodes call.peer).appendEntries call.args
    { c.setNode call.peer out.1 with appendCalls := c.appendCalls.modify i (Call.answer out.2) }

def settleAppend (i : Nat) (node : Fin n) (r : Node n) : Cluster n :=
  { c.setNode node r with appendCalls := c.appendCalls.modify i Call.close }

def returnAppend (i k : Nat) : Cluster n :=
  match c.appendCalls[i]? with
  | none => c
  | some call =>
    if call.pending then
      match call.replies[k]? with
      | none => c
      | some reply =>
        c.settleAppend i call.caller
          ((c.nodes call.caller).handleAppendReply call.caller call.peer call.args reply)
    else c

def failAppend (i : Nat) : Cluster n :=
  match c.appendCalls[i]? with
  | none => c
  | some call =>
    if call.pending then
      c.settleAppend i call.caller ((c.nodes call.caller).handleAppendError call.peer)
    else c

def deliverSnapshot (i : Nat) (full : Bool) : Cluster n :=
  match c.snapshotCalls[i]? with
  | none => c
  | some call =>
    let out := (c.nodes call.peer).installSnapshot call.args full
    { c.setNode call.peer out.1 with snapshotCalls := c.snapshotCalls.modify i (Call.answer out.2) }

def returnSnapshot (i k : Nat) : Cluster n :=
  match c.snapshotCalls[i]? with
  | none => c
  | some call =>
    if call.pending then
      match call.replies[k]? with
      | none => c
      | some reply =>
        { c.setNode call.caller ((c.nodes call.caller).handleSnapshotReply call.peer reply) with
          snapshotCalls := c.snapshotCalls.modify i Call.close }
    else c

def failSnapshot (i : Nat) : Cluster n :=
  { c with snapshotCalls := c.snapshotCalls.modify i Call.close }

/-- The goroutines of a process end with it. -/
def restart (node : Fin n) : Cluster n :=
  { nodes := Function.update c.nodes node (c.nodes node).restart
    rounds := c.rounds.map fun round => if round.node = node then { round with returned := true } else round
    voteCalls := c.voteCalls.map fun call => if call.caller = node then call.close else call
    appendCalls := c.appendCalls.map fun call => if call.caller = node then call.close else call
    snapshotCalls := c.snapshotCalls.map fun call => if call.caller = node then call.close else call }

def step (c : Cluster n) : Input n → Cluster n
  | .electionTimeout node => c.electionTimeout node
  | .deliverVote call => c.deliverVote call
  | .returnVote call reply => c.returnVote call reply
  | .failVote call => c.failVote call
  | .receiveVote round => c.receiveVote round
  | .voteTimeout round => c.voteTimeout round
  | .heartbeat node => c.heartbeat node
  | .appendEntry node command => c.appendEntry node command
  | .deliverAppend call => c.deliverAppend call
  | .returnAppend call reply => c.returnAppend call reply
  | .failAppend call => c.failAppend call
  | .takeSnapshot node index full => c.setNode node ((c.nodes node).takeSnapshot index full)
  | .deliverSnapshot call full => c.deliverSnapshot call full
  | .returnSnapshot call reply => c.returnSnapshot call reply
  | .failSnapshot call => c.failSnapshot call
  | .restart node => c.restart node

end Cluster

end KairosFlux.Raft
