import KairosFlux.Storage.Recency

/-! Lookups and scans of one store: that they agree when nothing else runs, and what they find while
a compaction replaces files under them. -/

namespace KairosFlux.Storage

open Lib List Layer Machine

/-- What a scan copies from memory, the newer table last. -/
def Store.memFeeds (s : Store) (start stop : Bytes) : List (Feed Bytes (Option Bytes)) :=
  (s.dirty.map fun table => memFeed table start stop).toList ++ [memFeed s.active start stop]

/-- No empty key and no empty value lies in the range in memory. -/
def Store.CopiesMemory (s : Store) (start stop : Bytes) : Prop :=
  CopiesWhole start stop s.active ∧ ∀ table ∈ s.dirty, CopiesWhole start stop table
deriving Decidable

variable (s : Store) (start stop : Bytes)

theorem Store.memFeeds_all {P : Feed Bytes (Option Bytes) → Prop}
    (each : ∀ table, P (memFeed table start stop)) : ∀ feed ∈ s.memFeeds start stop, P feed := by
  intro feed member
  rcases mem_append.mp member with dirty | active
  · obtain ⟨table, _, rfl⟩ := Option.map_eq_some_iff.mp (Option.mem_toList.mp dirty)
    exact each table
  · rw [mem_singleton.mp active]
    exact each s.active

theorem Store.stack_memFeeds (key : Bytes)
    (copies : s.CopiesMemory start stop) (inside : InRange start stop key) :
    stack ((s.memFeeds start stop).map Feed.layer) key = s.memLayer key := by
  have dirty : stack
      ((s.dirty.map fun table => memFeed table start stop).toList.map Feed.layer) key =
        s.dirty.bind fun table => table.lookup key := by
    cases shape : s.dirty with
    | none => rfl
    | some table => exact memFeed_layer table start stop key (copies.2 table shape) inside
  rw [Store.memFeeds, map_append, map_singleton, stack_snoc]
  simp only [above, Store.memLayer, dirty, memFeed_layer s.active start stop key copies.1 inside]

namespace Stored

variable {choice : BloomChoice} {tables : List StoredTable} {s : Store}

section

variable (stored : Stored choice s.metas s.disk tables)
include stored

theorem fileFeeds_eq (start stop : Bytes) : s.metas.filterMap (s.fileFeed start stop) =
      stored.engine.metas.filterMap (stored.engine.fileFeed start stop) := by
  have whole := stored.scanFeeds_eq start stop
  rw [Store.scanFeeds, Engine.scanFeeds, append_assoc, append_assoc] at whole
  exact append_cancel_right whole

theorem scanFeeds_sound (start stop : Bytes) : ∀ feed ∈ s.scanFeeds start stop, feed.Sound := by
  rw [stored.scanFeeds_eq]
  exact stored.onDisk.scanFeeds_sound start stop

theorem mem_scanRange (start stop : Bytes)
    (copies : s.CopiesMemory start stop) (key value : Bytes) :
    (key, value) ∈ s.scanRange start stop ↔ InRange start stop key ∧ s.get key = some value := by
  rw [Store.scanRange, mem_visited _ (stored.scanFeeds_sound start stop), Store.scanFeeds,
    append_assoc, ← Store.memFeeds]
  by_cases inside : InRange start stop key
  · have files : stack ((s.metas.filterMap (s.fileFeed start stop)).map Feed.layer) key =
        tablesLayer tables key := by
      rw [stored.fileFeeds_eq, stored.onDisk.stack_fileFeeds start stop key inside, stored.diskLayer]
    have seen : stack ((s.metas.filterMap (s.fileFeed start stop) ++
        s.memFeeds start stop).map Feed.layer) key =
          above s.memLayer (tablesLayer tables) key := by
      rw [map_append, stack_append]
      simp only [above, files, s.stack_memFeeds start stop key copies inside]
    rw [seen, stored.get_layer key, Option.join_eq_some_iff]
    exact (and_iff_right inside).symm
  · constructor
    · intro said
      obtain ⟨layer, member, speaks⟩ := exists_of_stack _ _ _ said
      obtain ⟨feed, fed, rfl⟩ := mem_map.mp member
      have silent : feed.layer key = none := by
        rcases mem_append.mp fed with file | memory
        · rw [stored.fileFeeds_eq] at file
          exact stored.onDisk.fileFeed_of_not start stop key inside feed file
        · exact s.memFeeds_all (P := fun feed => feed.layer key = none) start stop
            (fun table => memFeed_layer_of_not table start stop key inside) feed memory
      rw [silent] at speaks
      cases speaks
    · exact fun both => absurd both.1 inside

end

end Stored

/-- In every state of a run in which the workers are kept apart, as they are when one operation
follows the other, a scan visits in ascending order exactly the pairs that lookups find in its
range, provided that no empty key or value of the range is in memory. -/
theorem scan_agrees_with_get (choice : BloomChoice) (threshold : Nat) (inputs : List Input)
    (tidy : Guarded (workerStep choice threshold) (Kept.Tidy threshold) new inputs)
    (start stop : Bytes) :
    let s := (run (workerStep choice threshold) new inputs).store
    s.CopiesMemory start stop →
      (s.scanRange start stop).Pairwise KeyLt ∧ ∀ key value,
        (key, value) ∈ s.scanRange start stop ↔ InRange start stop key ∧ s.get key = some value := by
  intro s copies
  obtain ⟨tables, kept⟩ := Kept.run inputs tidy
  constructor
  · exact visited_sorted _ (kept.stored.scanFeeds_sound start stop)
  · exact kept.stored.mem_scanRange start stop copies

theorem scan_agrees_across_flush :
    let inputs := [Input.put (ascii ['a']) [1], Input.put (ascii ['b']) [2]] ++ flushSteps 1 ++
      [Input.delete (ascii ['a']), Input.put (ascii ['c']) [3]]
    let s := (run (workerStep plainBloom 2) new inputs).store
    ∀ key value, (key, value) ∈ s.scanRange [] (ascii ['b']) ↔
      InRange [] (ascii ['b']) key ∧ s.get key = some value := by
  intro inputs s
  exact (scan_agrees_with_get plainBloom 2 inputs (by decide +kernel) [] (ascii ['b'])
    (by decide +kernel)).2

/-- An empty value in memory is passed over, and an empty key ends the copy of its table. -/
theorem scan_misses_live_keys : let value := [Input.put (ascii ['k']) []]
    let key := [Input.put [] [1], Input.put (ascii ['k']) [1]]
    let after := fun inputs => (run (workerStep plainBloom 2) new inputs).store
    (∀ inputs ∈ [value, key], Guarded (workerStep plainBloom 2) (Kept.Tidy 2) new inputs ∧
        (after inputs).scanRange [] [] = []) ∧
      (after value).get (ascii ['k']) = some [] ∧ (after key).get (ascii ['k']) = some [1] := by
  decide +kernel

/-- Where a lookup stands. It has looked into the tables in memory, then it has the list of the
files, and it opens them one after the other, the newest first. -/
inductive GetState
  | start
  | missed
  | reading (files : List FileMeta)
  | done (value : Option Bytes)
  deriving DecidableEq

/-- Where a scan stands. The tables in memory are copied, and then the listed files are opened; a
file that is open stays readable when it is deleted. -/
inductive ScanState
  | start
  | copied (memory : List (Feed Bytes (Option Bytes)))
  | opening (files : List FileMeta) (opened memory : List (Feed Bytes (Option Bytes)))
  | done (pairs : List (Bytes × Bytes))
  deriving DecidableEq

def GetState.pending : GetState → List FileMeta
  | .reading files => files
  | _ => []

def ScanState.pending : ScanState → List FileMeta
  | .opening files _ _ => files
  | _ => []

def getStep (key : Bytes) (s : Store) : GetState → GetState
  | .start =>
    match s.active.lookup key with
    | some value => .done value
    | none =>
      match s.dirty.bind (fun table => table.lookup key) with
      | some value => .done value
      | none => .missed
  | .missed => .reading s.metas.reverse
  | .reading [] => .done none
  | .reading (info :: files) =>
    match s.readFile key info with
    | some value => .done value
    | none => .reading files
  | .done value => .done value

def scanStep (start stop : Bytes) (s : Store) : ScanState → ScanState
  | .start => .copied (s.memFeeds start stop)
  | .copied memory => .opening s.metas [] memory
  | .opening [] opened memory => .done (visited (opened ++ memory))
  | .opening (info :: files) opened memory =>
    .opening files (opened ++ (s.fileFeed start stop info).toList) memory
  | .done pairs => .done pairs

inductive ReadInput
  | read
  | compactStart
  | compactStep (now : Nat)

section Interleaving

variable (choice : BloomChoice) (threshold : Nat) {Reader : Type}

def interleave (readStep : Store → Reader → Reader) (state : Machine × Reader) :
    ReadInput → Machine × Reader
  | .read => (state.1, readStep state.1.store state.2)
  | .compactStart => (workerStep choice threshold state.1 .compactStart, state.2)
  | .compactStep now => (compactStep choice threshold now state.1, state.2)

/-- The file that the next step deletes. -/
def CompactState.doomed : CompactState → Option FileMeta
  | .deleting _ (file :: _) => some file
  | _ => none

/-- No file that still has to be opened and holds the key is about to be deleted. -/
def Spared (key : Bytes) (pending : List FileMeta) (m : Machine) : Prop :=
  ∀ file ∈ m.compact.doomed, ∀ info ∈ pending, info.ts = file.ts → m.store.readFile key info = none
deriving Decidable

/-- The key has its value, and a step of the compaction spares the files of the reader. -/
def Undisturbed (key value : Bytes) (pending : Reader → List FileMeta) (state : Machine × Reader)
    (input : ReadInput) : Prop :=
  state.1.store.get key = some value ∧
    match input with
    | .compactStep now => Timely state.1 (.compactStep now) ∧ Roomy state.1 (.compactStep now) ∧
        Spared key (pending state.2) state.1
    | _ => True

instance (key value : Bytes) (pending : Reader → List FileMeta) (state : Machine × Reader)
    (input : ReadInput) : Decidable (Undisturbed key value pending state input) := by
  cases input <;> dsimp only [Undisturbed] <;> infer_instance

end Interleaving

/-- What a compaction relies on at its next step. -/
def Continues (s : Store) (clock : Nat) : CompactState → Prop
  | .listed level files => files = s.levelFiles level
  | .merged _ _ ts entries => ts ≤ clock ∧ (∀ info ∈ s.metas, info.ts < ts) ∧
      ∃ table : MemTable, table.entries = entries ∧ TableFits table.entries
  | .removing _ file _ => s.disk.lookup file.ts = none
  | _ => True

/-- The files are complete, in whatever order they are listed. -/
structure Readable (choice : BloomChoice) (m : Machine) (tables : List StoredTable) : Prop where
  stored : Stored choice m.store.metas m.store.disk tables
  clocked : ∀ info ∈ m.store.metas, info.ts ≤ m.clock
  continues : Continues m.store m.clock m.compact

/-- A file that was listed: its name is not given again. -/
structure Held (m : Machine) (tables : List StoredTable) (info : FileMeta) : Prop where
  clocked : info.ts ≤ m.clock
  unnamed : ∀ ts ∈ m.compact.name, info.ts ≠ ts
  same : ∀ t ∈ tables, t.ts = info.ts → t.info = info

theorem Store.readFile_congr {s after : Store} (info : FileMeta) (key : Bytes)
    (same : after.disk.lookup info.ts = s.disk.lookup info.ts) :
    after.readFile key info = s.readFile key info := by
  rw [Store.readFile, Store.readFile, same]

theorem Store.readFile_of_lookup_none {s : Store} (info : FileMeta) (key : Bytes)
    (gone : s.disk.lookup info.ts = none) : s.readFile key info = none := by
  rw [Store.readFile, gone, Option.bind_none, ite_self, ite_self]

theorem Store.lookup_of_mergeFiles {s : Store} (files : List FileMeta) (entries : List LogEntry)
    (merged : s.mergeFiles files = some entries) :
    ∀ info ∈ files, (s.disk.lookup info.ts).isSome = true := by
  obtain ⟨feeds, opened, written⟩ := Option.bind_eq_some_iff.mp merged
  clear merged written
  induction files generalizing feeds with
  | nil => exact nofun
  | cons first rest ih =>
    rw [mapM_cons] at opened
    obtain ⟨feed, found, opened⟩ := Option.bind_eq_some_iff.mp opened
    obtain ⟨others, openedRest, _⟩ := Option.bind_eq_some_iff.mp opened
    intro info member
    rcases mem_cons.mp member with rfl | later
    · obtain ⟨file, here, _⟩ := Option.map_eq_some_iff.mp found
      rw [here]
      rfl
    · exact ih others openedRest info later

namespace Readable

variable {choice : BloomChoice} {threshold : Nat} {m : Machine} {tables : List StoredTable}

theorem held (readable : Readable choice m tables) (info : FileMeta) (member : info ∈ m.store.metas) :
    Held m tables info where
  clocked := readable.clocked info member
  unnamed := by
    intro ts named
    have continues := readable.continues
    cases state : m.compact with
    | merged level files own entries =>
      rw [state] at named continues
      obtain rfl := Option.some.inj named
      exact (continues.2.1 info member).ne
    | _ =>
      rw [state] at named
      cases named
  same := by
    intro t inside same
    have present : (m.store.disk.lookup info.ts).isSome = true := by
      rw [← same, readable.stored.lookup t inside]
      rfl
    have listed : info ∈ tables.map StoredTable.info := by
      rw [← readable.stored.listed]
      exact mem_filter.mpr ⟨member, present⟩
    obtain ⟨other, otherIn, rfl⟩ := mem_map.mp listed
    rw [readable.stored.ts_inj inside otherIn same]

theorem levelFiles_eq (readable : Readable choice m tables) (level : Nat)
    (opened : ∀ info ∈ m.store.levelFiles level, (m.store.disk.lookup info.ts).isSome = true) :
    m.store.levelFiles level = (tables.filter fun t => t.level = level).map StoredTable.info := by
  calc
    m.store.levelFiles level
      = (m.store.levelFiles level).filter fun info => (m.store.disk.lookup info.ts).isSome :=
        (filter_eq_self.mpr opened).symm
    _ = (m.store.metas.filter fun info => (m.store.disk.lookup info.ts).isSome).filter
          fun info => info.level = level := filter_comm _ _ _
    _ = (tables.filter fun t => t.level = level).map StoredTable.info := by
        rw [readable.stored.listed, filter_map]
        rfl

end Readable

/-- What a reader that has listed `files` keeps over a step of the compaction. -/
structure Carried (key : Bytes) (m : Machine) (tables : List StoredTable) (next : Machine)
    (after : List StoredTable) (files : List FileMeta) : Prop where
  memory : next.store.memLayer = m.store.memLayer
  copies : ∀ start stop, m.store.CopiesMemory start stop → next.store.CopiesMemory start stop
  held : ∀ info ∈ files, Held m tables info → Held next after info
  reads : ∀ info ∈ files, Held m tables info →
    next.store.readFile key info = m.store.readFile key info

namespace Readable

variable {choice : BloomChoice} {threshold : Nat} {m : Machine} {tables : List StoredTable}

theorem wait (readable : Readable choice m tables) (key : Bytes) (files : List FileMeta)
    (compact : CompactState) (unnamed : compact.name = none)
    (continues : Continues m.store m.clock compact) :
    Readable choice { m with compact := compact } tables ∧
      Carried key m tables { m with compact := compact } tables files := by
  refine ⟨⟨readable.stored, readable.clocked, continues⟩, rfl, fun _ _ copies => copies, ?_,
    fun _ _ _ => rfl⟩
  intro info _ held
  refine ⟨held.clocked, ?_, held.same⟩
  rw [unnamed]
  exact nofun

theorem compact (readable : Readable choice m tables) (key : Bytes) (files : List FileMeta)
    (now : Nat) (timely : Timely m (.compactStep now)) (roomy : Roomy m (.compactStep now))
    (spared : Spared key files m) :
    ∃ after, Readable choice (compactStep choice threshold now m) after ∧
      Carried key m tables (compactStep choice threshold now m) after files := by
  generalize next : compactStep choice threshold now m = machine
  have continues := readable.continues
  cases next ▸ compactStep_move choice threshold now m with
  | stay =>
    exact ⟨tables, readable, rfl, fun _ _ copies => copies, fun _ _ held => held, fun _ _ _ => rfl⟩
  | finish | look => exact ⟨tables, readable.wait key files _ rfl trivial⟩
  | list level looking full => exact ⟨tables, readable.wait key files _ rfl rfl⟩
  | merge level sources entries listed merged =>
    rw [listed] at continues
    have later : m.clock < now := timely (by rw [listed]; rfl)
    have fresh : ∀ info ∈ m.store.metas, info.ts < now :=
      fun info member => (readable.clocked info member).trans_lt later
    rw [show sources = _ from continues] at merged
    have shape := readable.levelFiles_eq level (Store.lookup_of_mergeFiles _ _ merged)
    rw [shape] at merged
    obtain ⟨table, same, _, fit⟩ := readable.stored.mergeLevel roomy level entries merged
    refine ⟨tables, ⟨readable.stored, fun info member => (fresh info member).le,
      le_rfl, fresh, table, same, fit⟩, rfl, fun _ _ copies => copies, ?_, fun _ _ _ => rfl⟩
    intro info _ held
    refine ⟨held.clocked.trans later.le, ?_, held.same⟩
    rintro ts named
    obtain rfl := Option.some.inj named
    exact (held.clocked.trans_lt later).ne
  | install level sources ts entries merged =>
    rw [merged] at continues
    obtain ⟨clocked, fresh, table, rfl, fit⟩ := continues
    have newName : ∀ info ∈ m.store.metas, info.ts ≠ ts := fun info member => (fresh info member).ne
    have newFile : ∀ t ∈ tables, t.ts ≠ ts :=
      fun t member => newName t.info (readable.stored.info_mem t member)
    refine ⟨tables ++ [⟨level + 1, ts, table⟩], ⟨?_, ?_, trivial⟩, rfl,
      fun _ _ copies => copies, ?_, ?_⟩
    · exact readable.stored.install (level + 1) ts table fit newName newFile
    · exact forall_mem_append.mpr ⟨readable.clocked, forall_mem_singleton.mpr clocked⟩
    · intro info _ held
      have different : info.ts ≠ ts := held.unnamed ts (by rw [merged]; rfl)
      refine ⟨held.clocked, nofun, ?_⟩
      intro t member same
      rcases mem_append.mp member with earlier | here
      · exact held.same t earlier same
      · rw [mem_singleton.mp here] at same
        exact absurd same.symm different
    · intro info _ held
      apply Store.readFile_congr
      exact SortedMap.lookup_insert_of_ne _ _ _ _ (held.unnamed ts (by rw [merged]; rfl))
  | delete level file sources deleting =>
    have doomed : file ∈ m.compact.doomed := by rw [deleting]; rfl
    have gone : (m.store.disk.erase file.ts).lookup file.ts = none :=
      (SortedMap.lookup_erase _ _ _).trans (if_pos rfl)
    refine ⟨tables.filter fun t => t.ts ≠ file.ts, ⟨readable.stored.delete _, readable.clocked, gone⟩,
      rfl, fun _ _ copies => copies, ?_, ?_⟩
    · intro info _ held
      exact ⟨held.clocked, nofun,
        fun t member same => held.same t (mem_filter.mp member).1 same⟩
    · intro info member held
      by_cases same : info.ts = file.ts
      · rw [spared file doomed info member same]
        apply Store.readFile_of_lookup_none
        rw [same]
        exact gone
      · apply Store.readFile_congr
        exact (SortedMap.lookup_erase _ _ _).trans (if_neg same)
  | remove level file sources removing =>
    rw [removing] at continues
    refine ⟨tables, ⟨readable.stored.removeMeta _ continues, ?_, trivial⟩, rfl,
      fun _ _ copies => copies, ?_, fun _ _ _ => rfl⟩
    · exact fun info member => readable.clocked info (mem_filter.mp member).1
    · intro info _ held
      exact ⟨held.clocked, nofun, held.same⟩

end Readable

/-- A reader whose own steps keep `holds` while the key has its value, that keeps it over a step of
the compaction, and that comes to an end. -/
structure Follows (choice : BloomChoice) (key value : Bytes) {Reader : Type}
    (readStep : Store → Reader → Reader) (pending : Reader → List FileMeta)
    (holds : Machine → List StoredTable → Reader → Prop) (rank : Store → Reader → Nat) : Prop where
  reads : ∀ m tables reader, Readable choice m tables → m.store.get key = some value →
    holds m tables reader → holds m tables (readStep m.store reader)
  carried : ∀ m tables next after reader, Carried key m tables next after (pending reader) →
    holds m tables reader → holds next after reader
  falls : ∀ s reader, rank s reader ≠ 0 → rank s (readStep s reader) < rank s reader

namespace Follows

variable {choice : BloomChoice} {threshold : Nat} {key value : Bytes} {Reader : Type}
  {readStep : Store → Reader → Reader} {pending : Reader → List FileMeta}
  {holds : Machine → List StoredTable → Reader → Prop} {rank : Store → Reader → Nat}

section

variable (follows : Follows choice key value readStep pending holds rank)
include follows

theorem step (state : Machine × Reader) (input : ReadInput)
    (kept : ∃ tables, Readable choice state.1 tables ∧ holds state.1 tables state.2)
    (undisturbed : Undisturbed key value pending state input) :
    ∃ after, Readable choice (interleave choice threshold readStep state input).1 after ∧
      holds (interleave choice threshold readStep state input).1 after
        (interleave choice threshold readStep state input).2 := by
  obtain ⟨tables, readable, held⟩ := kept
  obtain ⟨live, spared⟩ := undisturbed
  cases input with
  | read => exact ⟨tables, readable, follows.reads state.1 tables state.2 readable live held⟩
  | compactStart =>
    simp only [interleave, workerStep]
    split
    case h_1 idle =>
      obtain ⟨looking, same⟩ := readable.wait key (pending state.2) (.looking 0) rfl trivial
      exact ⟨tables, looking, follows.carried _ _ _ _ _ same held⟩
    case h_2 => exact ⟨tables, readable, held⟩
  | compactStep now =>
    obtain ⟨timely, roomy, spared⟩ := spared
    obtain ⟨after, next, same⟩ := readable.compact key (pending state.2) now timely roomy spared
    exact ⟨after, next, follows.carried _ _ _ _ _ same held⟩

/-- What holds at the start holds after the steps, and the reader ends if it goes on alone. -/
theorem ends (state : Machine × Reader) (steps : List ReadInput)
    (kept : ∃ tables, Readable choice state.1 tables ∧ holds state.1 tables state.2)
    (undisturbed : Guarded (interleave choice threshold readStep) (Undisturbed key value pending)
      state steps) :
    let after := run (interleave choice threshold readStep) state
    (after steps).1.store.get key = some value →
      (∃ tables, holds (after steps).1 tables (after steps).2) ∧
        ∃ n tables last, after (steps ++ List.replicate n .read) = last ∧
          holds last.1 tables last.2 ∧ rank last.1.store last.2 = 0 := by
  intro after live
  have kept := Guarded.invariant follows.step state steps kept undisturbed
  have reached := @exists_rank_eq_zero _ _ (interleave choice threshold readStep)
    (fun state => (∃ tables, Readable choice state.1 tables ∧ holds state.1 tables state.2) ∧
      state.1.store.get key = some value) .read (fun state => rank state.1.store state.2)
    (fun state inv => ⟨follows.step state .read inv.1 ⟨inv.2, trivial⟩, inv.2⟩)
    (fun state _ some => follows.falls state.1.store state.2 some) (after steps) ⟨kept, live⟩
  obtain ⟨n, ⟨⟨tables, _, held⟩, _⟩, zero⟩ := reached
  exact ⟨kept.imp fun _ => And.right, n, tables, _, run_append _ _ _ _, held, zero⟩

end

end Follows

/-- While files are to be read, they give the value. -/
def GetState.Holds (key value : Bytes) (m : Machine) (tables : List StoredTable) :
    GetState → Prop
  | .start => True
  | .missed => m.store.memLayer key = none
  | .reading files => (∀ info ∈ files, Held m tables info) ∧
      files.findSome? (m.store.readFile key) = some (some value)
  | .done result => result = some value

def GetState.rank (s : Store) : GetState → Nat
  | .start => s.metas.length + 3
  | .missed => s.metas.length + 2
  | .reading files => files.length + 1
  | .done _ => 0

theorem GetState.eq_done (s : Store) (state : GetState) (ended : state.rank s = 0) :
    ∃ result, state = .done result := by
  cases state with
  | done result => exact ⟨result, rfl⟩
  | start | missed | reading => cases ended

theorem Store.get_eq_or (s : Store) (key : Bytes) :
    s.get key = ((s.memLayer key).or (s.getFromFiles key)).join := by
  rw [Store.get, Store.memLayer, above]
  cases s.active.lookup key with
  | some value => rfl
  | none =>
    cases s.dirty.bind (fun table => table.lookup key) with
    | some value => rfl
    | none => cases s.getFromFiles key <;> rfl

theorem getStep_follows (choice : BloomChoice) (key value : Bytes) :
    Follows choice key value (getStep key) GetState.pending (GetState.Holds key value)
      GetState.rank where
  reads m tables reader readable live held := by
    cases reader with
    | start =>
      rw [Store.get] at live
      rw [getStep]
      cases active : m.store.active.lookup key with
      | some found =>
        rw [active] at live
        exact live
      | none =>
        simp only [active] at live ⊢
        cases dirty : m.store.dirty.bind (fun table => table.lookup key) with
        | some found =>
          rw [dirty] at live
          exact live
        | none => exact (above_eq_none _ _ key).mpr ⟨active, dirty⟩
    | missed =>
      refine ⟨fun info member => readable.held info (mem_reverse.mp member), ?_⟩
      rw [Store.get_eq_or, held, Option.none_or] at live
      exact Option.join_eq_some_iff.mp live
    | reading files =>
      cases files with
      | nil => cases held.2
      | cons info files =>
        obtain ⟨listed, found⟩ := held
        rw [List.findSome?_cons] at found
        rw [getStep]
        cases read : m.store.readFile key info with
        | some result =>
          rw [read] at found
          exact Option.some.inj found
        | none =>
          rw [read] at found
          exact ⟨fun other member => listed other (.tail _ member), found⟩
    | done result => exact held
  carried m tables next after reader carried held := by
    cases reader with
    | start => trivial
    | missed => exact (congrFun carried.memory key).trans held
    | reading files =>
      refine ⟨fun info member => carried.held info member (held.1 info member), ?_⟩
      rw [← held.2]
      apply findSome?_congr
      exact fun info member => carried.reads info member (held.1 info member)
    | done result => exact held
  falls s reader some := by
    cases reader with
    | start =>
      rw [getStep]
      split
      · exact Nat.succ_pos _
      · split
        · exact Nat.succ_pos _
        · exact Nat.lt_succ_self _
    | missed =>
      rw [getStep, GetState.rank, GetState.rank, length_reverse]
      exact Nat.lt_succ_self _
    | reading files =>
      cases files with
      | nil => exact Nat.succ_pos _
      | cons info files =>
        rw [getStep]
        split
        · exact Nat.succ_pos _
        · exact Nat.lt_succ_self _
    | done result => exact absurd rfl some

namespace Stored

variable {choice : BloomChoice} {tables : List StoredTable} {s : Store}

theorem fileFeed_cases (stored : Stored choice s.metas s.disk tables) (t : StoredTable)
    (member : t ∈ tables) (start stop : Bytes) :
    (s.fileFeed start stop t.info = none ∧
        ∀ key, InRange start stop key → t.table.lookup key = none) ∨
      s.fileFeed start stop t.info = some (rangeFeed start stop false t.table.entries) := by
  obtain ⟨number, bound, rfl⟩ := getElem_of_mem member
  have numbered : (tables[number], number) ∈ tables.zipIdx := mk_mem_zipIdx_iff_getElem?.mpr
    (List.getElem?_eq_getElem bound)
  rw [stored.fileFeed_info (tables[number], number) numbered start stop]
  exact stored.onDisk.fileFeed_cases (number, tables[number].table)
    (mem_map_of_mem numbered) start stop

end Stored

theorem Readable.fileFeed_held {choice : BloomChoice} {m : Machine} {tables : List StoredTable}
    (readable : Readable choice m tables) (info : FileMeta) (held : Held m tables info)
    (start stop : Bytes) :
    (∀ feed ∈ (m.store.fileFeed start stop info).toList, feed.Sound) ∧
      ∀ key, InRange start stop key →
        stack ((m.store.fileFeed start stop info).toList.map Feed.layer) key =
          m.store.readFile key info := by
  cases found : m.store.disk.lookup info.ts with
  | none =>
    have skipped : m.store.fileFeed start stop info = none := by
      rw [Store.fileFeed, found, Option.map_none, ite_self, ite_self]
    rw [skipped]
    refine ⟨by simp, fun key _ => ?_⟩
    exact (Store.readFile_of_lookup_none info key found).symm
  | some file =>
    obtain ⟨t, member, same⟩ := readable.stored.mem_of_lookup info.ts (by rw [found]; rfl)
    rw [← held.same t member same]
    rcases readable.stored.fileFeed_cases t member start stop with ⟨skipped, absent⟩ | opened
    · rw [skipped]
      refine ⟨by simp, fun key inside => ?_⟩
      rw [readable.stored.readFile_info t member key, absent key inside]
      rfl
    · rw [opened]
      refine ⟨?_, fun key inside => ?_⟩
      · intro feed inFeeds
        rw [mem_singleton.mp inFeeds]
        exact rangeFeed_sound start stop t.table
      · rw [readable.stored.readFile_info t member key]
        exact rangeFeed_layer start stop key t.table inside

/-- What memory, the files to be opened and the open ones say on top of each other is the value. -/
def ScanState.Holds (start stop key value : Bytes) (m : Machine) (tables : List StoredTable) :
    ScanState → Prop
  | .start => m.store.CopiesMemory start stop
  | .copied memory => (∀ feed ∈ memory, feed.Sound) ∧
      stack (memory.map Feed.layer) key = m.store.memLayer key
  | .opening files opened memory => (∀ info ∈ files, Held m tables info) ∧
      (∀ feed ∈ opened ++ memory, feed.Sound) ∧
      (stack (memory.map Feed.layer) key).or
        ((files.reverse.findSome? (m.store.readFile key)).or
          (stack (opened.map Feed.layer) key)) = some (some value)
  | .done pairs => (key, value) ∈ pairs

def ScanState.rank (s : Store) : ScanState → Nat
  | .start => s.metas.length + 3
  | .copied _ => s.metas.length + 2
  | .opening files _ _ => files.length + 1
  | .done _ => 0

theorem ScanState.eq_done (s : Store) (state : ScanState) (ended : state.rank s = 0) :
    ∃ pairs, state = .done pairs := by
  cases state with
  | done pairs => exact ⟨pairs, rfl⟩
  | start | copied | opening => cases ended

theorem scanStep_follows (choice : BloomChoice) (start stop key value : Bytes)
    (inside : InRange start stop key) :
    Follows choice key value (scanStep start stop) ScanState.pending
      (ScanState.Holds start stop key value) ScanState.rank where
  reads m tables reader readable live held := by
    cases reader with
    | start =>
      exact ⟨m.store.memFeeds_all start stop fun table => memFeed_sound table start stop,
        m.store.stack_memFeeds start stop key held inside⟩
    | copied memory =>
      refine ⟨fun info member => readable.held info member, held.1, ?_⟩
      rw [held.2, map_nil, stack, Layer.empty, Option.or_none]
      rw [Store.get_eq_or] at live
      exact Option.join_eq_some_iff.mp live
    | opening files opened memory =>
      obtain ⟨listed, sound, seen⟩ := held
      cases files with
      | nil =>
        apply (mem_visited _ sound key value).mpr
        rw [map_append, stack_append]
        exact seen
      | cons info files =>
        obtain ⟨feeds, reads⟩ :=
          readable.fileFeed_held info (listed info (.head _)) start stop
        refine ⟨fun other member => listed other (.tail _ member), ?_, ?_⟩
        · intro feed member
          rw [append_assoc, mem_append, mem_append] at member
          rcases member with before | new | memory
          · exact sound feed (mem_append_left _ before)
          · exact feeds feed new
          · exact sound feed (mem_append_right _ memory)
        · rw [reverse_cons, List.findSome?_append, List.findSome?_singleton, ← reads key inside,
            Option.or_assoc] at seen
          rw [map_append, stack_append]
          exact seen
    | done pairs => exact held
  carried m tables next after reader carried held := by
    cases reader with
    | start => exact carried.copies start stop held
    | copied memory => exact ⟨held.1, held.2.trans (congrFun carried.memory key).symm⟩
    | opening files opened memory =>
      obtain ⟨listed, sound, seen⟩ := held
      refine ⟨fun info member => carried.held info member (listed info member), sound, ?_⟩
      rw [← seen]
      congr 2
      apply findSome?_congr
      intro info member
      have inFiles := mem_reverse.mp member
      exact carried.reads info inFiles (listed info inFiles)
    | done pairs => exact held
  falls s reader some := by
    cases reader with
    | start | copied => exact Nat.lt_succ_self _
    | opening files opened memory =>
      cases files with
      | nil => exact Nat.succ_pos _
      | cons info files => exact Nat.lt_succ_self _
    | done pairs => exact absurd rfl some

end KairosFlux.Storage
