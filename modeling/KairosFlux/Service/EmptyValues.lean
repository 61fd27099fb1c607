import KairosFlux.Service.Checkpoint
import KairosFlux.Storage.Scan

/-! Values of length zero in the standalone server.

The tables and the files keep an empty value apart from a tombstone. The copies that a scan and a
checkpoint take of the tables in memory do not, and neither does the log. -/

namespace KairosFlux.Service

open Lib Storage ServerState

/-- Where no checkpoint and no start meets an empty value, a put of one is answered as such, and a
scan finds it once it has left the memory. -/
theorem empty_value_kept (steps : List ServerStep)
    (spares : Guarded serverStep SparesEmpty initial steps) :
    let s := run serverStep initial steps
    s.pending = [] → ∀ key, lastAcked key s.acked = some [] →
      s.engine.get key = some [] ∧
        (s.engine.memLayer key = none →
          ∀ start stop, InRange start stop key → (key, []) ∈ s.engine.scanRange start stop) := by
  intro s ready key acked
  obtain ⟨files, logged, keeps⟩ := Kept.run steps spares
  rw [ready] at keeps
  have present : s.engine.get key = some [] := (keeps.get_eq key).trans acked
  refine ⟨present, fun absent start stop inside => ?_⟩
  rw [keeps.onDisk.mem_scanRange start stop key [] inside absent]
  have seen : s.engine.view key = s.engine.diskLayer key := by
    rw [Engine.view, Layer.above, absent, Option.none_or]
  rw [Engine.get_eq, seen] at present
  exact Option.join_eq_some_iff.mp present

theorem empty_value_kept_in_file : let k := ascii ['k']
    let steps : List ServerStep := [.write ⟨.put, k, some []⟩, .swap, .flush 5, .checkpoint, .crash]
    let s := run serverStep initial steps
    s.engine.get k = some [] ∧ (k, []) ∈ s.engine.scanRange [] k := by
  intro k steps s
  have kept := empty_value_kept steps
    ⟨by decide, trivial, by decide, by decide, by decide +kernel, trivial⟩ (by decide +kernel) k
    (by decide +kernel)
  exact ⟨kept.1, kept.2 (by decide +kernel) [] k (by decide)⟩

/-- A scan passes over an empty value in memory, and a restart deletes it, whether the log still has
the put or a checkpoint has copied the table, and even when the value is already in a file. -/
theorem empty_value_lost : let k := ascii ['k']
    let after := fun later => run serverStep initial (.write ⟨.put, k, some []⟩ :: later)
    let restarted : List (List ServerStep) := [[.crash, .replayNext],
      [.checkpoint, .crash, .replayNext], [.swap, .flush 5, .crash, .replayNext]]
    lastAcked k (after []).acked = some [] ∧ (after []).engine.get k = some [] ∧
      (after []).engine.scanRange [] [] = [] ∧
      ∀ later ∈ restarted, (after later).pending = [] ∧ lastAcked k (after later).acked = some [] ∧
        (after later).engine.get k = none := by
  decide +kernel

end KairosFlux.Service
