import KairosFlux.Raft.Safety

/-! `KVServer.Write` over a group (`service/fsm.go`): the command goes into the log of the leader, and
the call returns once the commit index has reached the index of its entry. The wait compares numbers;
a leader that was deposed may have another entry there. -/

namespace KairosFlux.Raft

open Lib List

variable {n : Nat}

/-- A call of `WaitCommitIndex`: about to look at the commit index, in `commitCond.Wait`, or done. -/
inductive Wait
  | looking
  | waiting
  | returned
  deriving DecidableEq

/-- A call of `Write` whose `AppendEntry` has returned an index. The term is that of the leader then;
the call does not know it. -/
structure WriteCall (n : Nat) where
  node : Fin n
  command : Bytes
  index : Int
  term : Nat
  wait : Wait
  deriving DecidableEq

structure Clients (n : Nat) where
  cluster : Cluster n
  writes : List (WriteCall n)

inductive ClientInput (n : Nat)
  | cluster (input : Input n)
  | write (node : Fin n) (command : Bytes)
  | look (call : Nat)

/-- The node at which a step calls `commitCond.Broadcast`: one that has counted a majority, or a
single node. A follower that hears of a commit does not. -/
def Cluster.broadcasts (c : Cluster n) : Input n → Option (Fin n)
  | .returnAppend i k => c.appendCalls[i]?.bind fun call =>
    if call.pending then call.replies[k]?.bind fun reply =>
      let r := (c.nodes call.caller).advanceMatch call.peer
        (call.args.prevLogIndex + call.args.entries.length)
      if reply.term ≤ r.term ∧ reply.success ∧ r.state = .leader ∧
          (r.findCommit call.caller r.log.length).isSome then some call.caller
      else none
    else none
  | .appendEntry node _ => if n = 1 ∧ (c.nodes node).state = .leader then some node else none
  | _ => none

namespace Clients

def new : Clients n := ⟨.new, []⟩

def wake (node : Option (Fin n)) (call : WriteCall n) : WriteCall n :=
  if node = some call.node ∧ call.wait = .waiting then { call with wait := .looking } else call

def advance (s : Clients n) (input : Input n) : Clients n :=
  ⟨s.cluster.step input, s.writes.map (wake (s.cluster.broadcasts input))⟩

def write (s : Clients n) (node : Fin n) (command : Bytes) : Clients n :=
  let r := s.cluster.nodes node
  match (r.appendEntry command).2 with
  | none => s
  | some index =>
    let after := s.advance (.appendEntry node command)
    { after with writes := after.writes ++ [⟨node, command, index, r.term, .looking⟩] }

/-- One turn of the loop of `WaitCommitIndex`. -/
def look (s : Clients n) (i : Nat) : Clients n :=
  { s with
    writes := s.writes.modify i fun call =>
      if call.wait = .looking then
        { call with
          wait := if call.index ≤ (s.cluster.nodes call.node).commitIndex then .returned
            else .waiting }
      else call }

def step (s : Clients n) : ClientInput n → Clients n
  | .cluster input => s.advance input
  | .write node command => s.write node command
  | .look call => s.look call

end Clients

open Clients

def ClientInput.Plain : ClientInput n → Prop
  | .cluster input => input.Plain
  | _ => True

/-- Whoever has returned has written what was applied at its index. -/
def OwnWrites (s : Clients n) : Prop :=
  ∀ call ∈ s.writes, call.wait = .returned → ∀ entry ∈ (s.cluster.nodes call.node).applyCh,
    entry.index = call.index → entry.command = call.command

/-- At its return the log still has the entry of the call: one of the same term at the index. -/
def Clients.Kept (s : Clients n) : ClientInput n → Prop
  | .cluster input => s.cluster.Reliable input
  | .look i => ∀ call ∈ s.writes[i]?, call.wait = .looking →
      call.index ≤ (s.cluster.nodes call.node).commitIndex →
        ∃ entry ∈ (s.cluster.nodes call.node).log[call.index.toNat]?, entry.term = call.term
  | .write _ _ => True

instance (s : Clients n) : DecidablePred s.Kept
  | .cluster input => inferInstanceAs (Decidable (s.cluster.Reliable input))
  | .look _ => inferInstanceAs (Decidable (∀ _ ∈ _, _))
  | .write _ _ => isTrue trivial

def WriteCall.entry (call : WriteCall n) : LogEntry := ⟨call.index, call.term, call.command, false⟩

/-- The entry of a call is in the log of the leader who took it, and safe once the call has
returned. -/
def Recorded (h : Reigns (Fin n) LogEntry) (w : World n) (call : WriteCall n) : Prop :=
  h.leader call.term ≠ none ∧ ∃ front : List LogEntry, (front.length : Int) = call.index ∧
    front ++ [call.entry] <+: h.log call.term ∧
      (call.wait = .returned → ∃ T, w.Safe h T (front ++ [call.entry]))

structure Owned (h : Reigns (Fin n) LogEntry) (s : Clients n) : Prop where
  counting : s.cluster.Counting
  committing : Committing h s.cluster.world
  recorded : ∀ call ∈ s.writes, Recorded h s.cluster.world call

namespace Recorded

variable {h later : Reigns (Fin n) LogEntry} {w after : World n} {call : WriteCall n}

theorem extend (recorded : Recorded h w call) (extension : h.Extends later)
    (acked : w.acked ⊆ after.acked) : Recorded later after call := by
  rcases recorded with ⟨ruled, front, place, inside, safe⟩
  refine ⟨extension.ruled ruled, front, place, inside.trans (extension.log _ ruled), fun back => ?_⟩
  rcases safe back with ⟨T, safe⟩
  exact ⟨T, safe.extend extension acked⟩

theorem wake (recorded : Recorded h w call) (node : Option (Fin n)) :
    Recorded h w (Clients.wake node call) := by
  rw [Clients.wake]
  split_ifs
  · rcases recorded with ⟨ruled, front, place, inside, _⟩
    exact ⟨ruled, front, place, inside, by simp⟩
  · exact recorded

end Recorded

namespace Owned

variable {h : Reigns (Fin n) LogEntry} {s : Clients n}

theorem advance (owned : Owned h s) {input : Input n} (plain : input.Plain)
    (reliable : s.cluster.Reliable input) :
    ∃ later, h.Extends later ∧ Owned later (s.advance input) := by
  rcases owned.counting.recorded_step Reigns.Extends.refl (fun _ _ _ => .trans)
    (fun _ _ _ committing allowed => Committing.step committing allowed.1 allowed.2.1 allowed.2.2)
    h owned.committing input
    (Guarded.and _ _ (Guarded.of_forall _ _ (s.cluster.plain_events plain))
      (s.cluster.reliable_events reliable)) with ⟨later, extension, committing⟩
  refine ⟨later, extension, owned.counting.step input, committing, fun call member => ?_⟩
  rcases mem_map.mp member with ⟨before, old, rfl⟩
  have acked : s.cluster.world.acked ⊆ (s.cluster.step input).world.acked := by
    rw [Cluster.world_step]
    exact World.acked_subset_run _ _
  exact ((owned.recorded before old).extend extension acked).wake _

theorem write (owned : Owned h s) (node : Fin n) (command : Bytes) :
    ∃ later, h.Extends later ∧ Owned later (s.write node command) := by
  by_cases leader : (s.cluster.nodes node).state = .leader
  · have answer : ((s.cluster.nodes node).appendEntry command).2 =
        some ((s.cluster.nodes node).newEntry command).index := by
      rw [Node.appendEntry, if_pos leader]
    have plain : (Input.appendEntry node command).Plain := trivial
    rcases owned.advance plain trivial with ⟨later, extension, after⟩
    rw [Clients.write, answer]
    refine ⟨later, extension, after.counting, after.committing, fun call member => ?_⟩
    rcases mem_append.mp member with old | new
    · exact after.recorded call old
    · rw [mem_singleton.mp new]
      -- The leader's log ends with the entry of the call.
      have matching := after.committing.matching
      have grown := Node.keepsLog_appendEntry leader command
      have here : (s.advance (.appendEntry node command)).cluster.world.nodes node =
          ((s.cluster.nodes node).appendEntry command).1 := by
        change (s.cluster.appendEntry node command).nodes node = _
        rw [Cluster.appendEntry, if_pos leader]
        split_ifs
        · exact Function.update_self _ _ _
        · exact Function.update_self _ _ _
      have leads := (Node.appendEntry_state (s.cluster.nodes node) command).trans leader
      have log := matching.leads node (here ▸ leads)
      have index := matching.indexed_of_grounded (matching.grounded node)
      rw [here, grown.log, (grown.leads leads).2] at log
      rw [here, grown.log] at index
      have ruled := matching.voting.leads node (here ▸ leads)
      rw [here, (grown.leads leads).2] at ruled
      refine ⟨?_, (s.cluster.nodes node).log, ?_, ?_, by simp⟩
      · rw [show later.leader (s.cluster.nodes node).term = some node from ruled]
        exact Option.some_ne_none node
      · exact (index _ _ prefix_rfl).symm
      · exact log ▸ prefix_rfl
  · have answer : ((s.cluster.nodes node).appendEntry command).2 = none := by
      rw [Node.appendEntry, if_neg leader]
    rw [Clients.write, answer]
    exact ⟨h, .refl h, owned⟩

/-- A call that finds an entry of its term at its index finds its entry, and it is safe. -/
theorem look (owned : Owned h s) (i : Nat) (kept : s.Kept (.look i)) : Owned h (s.look i) := by
  refine ⟨owned.counting, owned.committing, fun call member => ?_⟩
  rcases mem_modify member with old | ⟨before, found, rfl⟩
  · exact owned.recorded call old
  · have recorded := owned.recorded before (mem_of_getElem? found)
    split_ifs with looking reached
    · rcases recorded with ⟨ruled, front, place, inside, _⟩
      refine ⟨ruled, front, place, inside, fun _ => ?_⟩
      have matching := owned.committing.matching
      have settled := owned.committing.settled before.node
      rcases kept before found looking reached with ⟨entry, there, term⟩
      have short : ((s.cluster.nodes before.node).log.take before.index.toNat).length =
          before.index.toNat :=
        length_take_of_le (List.getElem?_eq_some_iff.mp there).1.le
      have inLog := prefix_of_getElem? (List.take_prefix before.index.toNat _) (by rwa [short])
      have made := (matching.grounded before.node _ entry inLog).2
      rw [term] at made
      have same := eq_of_shared inside made (by
        rw [length_append, length_append, short]
        simp only [length_singleton]
        omega)
      refine ⟨_, World.Safe.beginning settled.committed (?_ : front ++ [before.entry] <+: _)⟩
      rw [same]
      apply prefix_of_prefix_length_le inLog (List.take_prefix _ _)
      have bound := settled.inside
      change _ ≤ (List.take ((s.cluster.nodes before.node).commitIndex + 1).toNat
        (s.cluster.nodes before.node).log).length
      change (s.cluster.nodes before.node).commitIndex < (s.cluster.nodes before.node).log.length at bound
      rw [length_append, short, length_take, length_singleton]
      omega
    · rcases recorded with ⟨ruled, front, place, inside, _⟩
      exact ⟨ruled, front, place, inside, by simp⟩
    · exact recorded

theorem ownWrites (owned : Owned h s) : OwnWrites s := by
  intro call member back entry applied index
  rcases owned.recorded call member with ⟨_, front, place, _, safe⟩
  rcases safe back with ⟨_, safe⟩
  rcases (owned.committing.settled call.node).applied entry applied with ⟨other, placeToo, safeToo⟩
  rw [owned.committing.safe_eq safeToo safe (by omega)]
  rfl

theorem step (owned : Owned h s) (input : ClientInput n) (plain : input.Plain) (kept : s.Kept input) :
    ∃ later, h.Extends later ∧ Owned later (s.step input) := by
  cases input with
  | cluster input => exact owned.advance plain kept
  | write node command => exact owned.write node command
  | look i => exact ⟨h, .refl h, owned.look i kept⟩

theorem new : Owned Reigns.empty (new : Clients n) :=
  ⟨.new, .new, nofun⟩

end Owned

end KairosFlux.Raft
