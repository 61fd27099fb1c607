import KairosFlux.Lib.Runs
import KairosFlux.Storage.Engine

/-! Lookups beside writes and flushes (`Get`, `Put`, `Delete` and `Flush` in `storage/engine.go`), one
atomic step at a time. A lookup answers what its key had at some moment of the call. -/

namespace KairosFlux.Storage

open Lib List Layer Function Option Engine

/-- Where a `Get` stands: it is called, it has found nothing in memory, it reads the files that it
has listed, the newest first, or it has returned. -/
inductive Lookup
  | called
  | missed
  | reading (files : List SSTableMeta)
  | answered (value : Option Bytes)
  deriving DecidableEq

/-- Where a `Flush` stands, with the table that it has taken. -/
inductive FlushRun
  | swapped (table : MemTable)
  | installed
  | ended

def FlushRun.isEnded : FlushRun → Bool
  | .ended => true
  | _ => false

structure Traffic where
  engine : Engine
  flushes : List FlushRun
  lookups : List (Bytes × Lookup)

/-- `flush`, `install` and `drop` are the steps of a `Flush`, `call` and `look` those of a `Get`. -/
inductive TrafficInput
  | put (key : Bytes) (value : Option Bytes)
  | delete (key : Bytes)
  | flush
  | install (run : Nat) (ts : Nat)
  | drop (run : Nat)
  | call (key : Bytes)
  | look (reader : Nat)

namespace Engine

/-- `WriteToSSTable` of the entries of a table. -/
def writeTable (e : Engine) (ts : Nat) (entries : List LogEntry) : Engine :=
  { e with
    metas := e.metas ++ [tableMeta ts entries]
    disk := e.disk.insert ts (tableFile entries) }

/-- The next step of a lookup. The table being flushed is not written any more, so it is searched
together with the active one. -/
def look (e : Engine) (key : Bytes) : Lookup → Lookup
  | .called =>
    match e.active.lookup key with
    | some value => .answered value
    | none =>
      match e.dirty.bind (fun table => table.lookup key) with
      | some value => .answered value
      | none => .missed
  | .missed => .reading e.metas.reverse
  | .reading [] => .answered none
  | .reading (info :: files) =>
    match e.readMeta key info with
    | some value => .answered value
    | none => .reading files
  | .answered value => .answered value

end Engine

namespace Traffic

def new (disk : SortedMap Nat SSTableFile) : Traffic := ⟨Engine.new disk, [], []⟩

-- With nothing to flush the run ends at once; a table that another run has left is taken as it is.
def startFlush (t : Traffic) : Traffic :=
  match t.engine.swap.dirty with
  | none => { t with flushes := t.flushes ++ [.ended] }
  | some table => { t with engine := t.engine.swap, flushes := t.flushes ++ [.swapped table] }

def install (t : Traffic) (run ts : Nat) : Traffic :=
  match t.flushes[run]? with
  | some (.swapped table) =>
    if table.entries = [] then { t with flushes := t.flushes.set run .ended }
    else
      { t with
        engine := t.engine.writeTable ts table.entries
        flushes := t.flushes.set run .installed }
  | _ => t

def drop (t : Traffic) (run : Nat) : Traffic :=
  match t.flushes[run]? with
  | some .installed =>
    { t with engine := { t.engine with dirty := none }, flushes := t.flushes.set run .ended }
  | _ => t

def look (t : Traffic) (reader : Nat) : Traffic :=
  match t.lookups[reader]? with
  | some (key, lookup) =>
    { t with lookups := t.lookups.set reader (key, t.engine.look key lookup) }
  | none => t

def step (t : Traffic) : TrafficInput → Traffic
  | .put key value => { t with engine := t.engine.put key value }
  | .delete key => { t with engine := t.engine.delete key }
  | .flush => t.startFlush
  | .install run ts => t.install run ts
  | .drop run => t.drop run
  | .call key => { t with lookups := t.lookups ++ [(key, .called)] }
  | .look reader => t.look reader

end Traffic

/-- What every key has, behind a write. -/
def settle (content : Bytes → Option Bytes) : TrafficInput → Bytes → Option Bytes
  | .put key value => update content key value
  | .delete key => update content key none
  | _ => content

def contentAfter (content : Bytes → Option Bytes) (inputs : List TrafficInput) :
    Bytes → Option Bytes :=
  inputs.foldl settle content

/-- Lengths fit their fields, a file gets a name that no other has, and a flush begins when no other
is under way, as in the loop of `FlushWorker`. -/
def Admitted (t : Traffic) : TrafficInput → Prop
  | .put key value => EntryFits (key, value)
  | .delete key => EntryFits (key, none)
  | .flush => ∀ run ∈ t.flushes, run.isEnded = true
  | .install _ ts => ∀ info ∈ t.engine.metas, info.ts ≠ ts
  | .drop _ | .call _ | .look _ => True

instance (t : Traffic) (input : TrafficInput) : Decidable (Admitted t input) := by
  cases input <;> dsimp only [Admitted] <;> infer_instance

namespace Engine

variable {e : Engine}

theorem readMeta_writeTable (ts : Nat) (table : MemTable)
    (fits : ∀ entry ∈ table.entries, EntryFits entry) (key : Bytes) :
    (e.writeTable ts table.entries).readMeta key (tableMeta ts table.entries) = table.lookup key := by
  rw [readMeta, tableMeta]
  by_cases below : key < firstKey table.entries
  · rw [if_pos below, lookup_eq_none_of_lt_firstKey table key below]
  · by_cases above : lastKey table.entries < key
    · rw [if_neg below, if_pos above, lookup_eq_none_of_lastKey_lt table key above]
    · rw [if_neg below, if_neg above, writeTable, SortedMap.lookup_insert_self]
      exact readFromSSTable_encodeAll table key fits

theorem findSome?_writeTable (ts : Nat) (entries : List LogEntry) (files : List SSTableMeta)
    (others : ∀ info ∈ files, info.ts ≠ ts) (key : Bytes) :
    files.findSome? ((e.writeTable ts entries).readMeta key) = files.findSome? (e.readMeta key) := by
  induction files with
  | nil => rfl
  | cons info files ih =>
    rcases forall_mem_cons.mp others with ⟨here, later⟩
    have same : (e.writeTable ts entries).readMeta key info = e.readMeta key info := by
      rw [readMeta, readMeta, writeTable, SortedMap.lookup_insert_of_ne _ _ _ _ here]
    rw [List.findSome?_cons, List.findSome?_cons, same, ih later]

theorem diskLayer_writeTable (ts : Nat) (table : MemTable)
    (fits : ∀ entry ∈ table.entries, EntryFits entry) (fresh : ∀ info ∈ e.metas, info.ts ≠ ts) :
    (e.writeTable ts table.entries).diskLayer = above table.lookup e.diskLayer := by
  funext key
  have others : ∀ info ∈ e.metas.reverse, info.ts ≠ ts :=
    fun info member => fresh info (mem_reverse.mp member)
  calc
    (e.writeTable ts table.entries).diskLayer key
      = (tableMeta ts table.entries :: e.metas.reverse).findSome?
          ((e.writeTable ts table.entries).readMeta key) := by
        rw [diskLayer, getFromSSTables, writeTable, reverse_append, reverse_singleton,
          singleton_append]
    _ = (table.lookup key).or (e.metas.reverse.findSome? (e.readMeta key)) := by
        rw [List.findSome?_cons, readMeta_writeTable ts table fits, findSome?_writeTable ts _ _ others]
        cases table.lookup key <;> rfl
    _ = above table.lookup e.diskLayer key := rfl

end Engine

/-- Lookups read the last write, and at most one flush is under way. Its table is the one that is
being flushed, and behind the installation the files repeat it. -/
structure Coherent (t : Traffic) (content : Bytes → Option Bytes) : Prop where
  holds : ∀ key, (t.engine.view key).join = content key
  fits : ∀ entry ∈ t.engine.memEntries, EntryFits entry
  alone : ∀ (i j : Nat) (first second : FlushRun), t.flushes[i]? = some first →
    t.flushes[j]? = some second → first.isEnded = false → second.isEnded = false → i = j
  taken : ∀ (i : Nat) (table : MemTable), t.flushes[i]? = some (.swapped table) → t.engine.dirty = some table
  covered : ∀ (i : Nat) (table : MemTable), t.flushes[i]? = some .installed → t.engine.dirty = some table →
    above table.lookup t.engine.diskLayer = t.engine.diskLayer

namespace Coherent

variable {t : Traffic} {content : Bytes → Option Bytes}

theorem new (disk : SortedMap Nat SSTableFile) : Coherent (Traffic.new disk) (Engine.new disk).get where
  holds key := (Engine.get_eq _ key).symm
  fits _ member := nomatch member
  alone _ _ _ _ found := by cases found
  taken _ _ found := by cases found
  covered _ _ found := by cases found

theorem of_only {place : Nat} {under : FlushRun}
    (only : ∀ i run, t.flushes[i]? = some run → run.isEnded = false → i = place ∧ run = under)
    (holds : ∀ key, (t.engine.view key).join = content key)
    (fits : ∀ entry ∈ t.engine.memEntries, EntryFits entry)
    (taken : ∀ table, under = .swapped table → t.engine.dirty = some table)
    (covered : under = .installed → ∀ table, t.engine.dirty = some table →
      above table.lookup t.engine.diskLayer = t.engine.diskLayer) : Coherent t content where
  holds := holds
  fits := fits
  alone i j first second here there one other := by
    rw [(only i first here one).1, (only j second there other).1]
  taken i table found := taken table (only i _ found rfl).2.symm
  covered i table found := covered (only i _ found rfl).2.symm table

section

variable (coherent : Coherent t content)
include coherent

theorem put (key : Bytes) (value : Option Bytes) (fits : EntryFits (key, value)) :
    Coherent { t with engine := t.engine.put key value } (update content key value) where
  __ := coherent
  holds query := by
    rw [view_put]
    by_cases here : query = key
    · rw [here, above_single_self, update_self]
      rfl
    · rw [above_single_of_ne _ _ _ _ here, update_of_ne here]
      exact coherent.holds query
  fits entry member := by
    rcases t.engine.mem_memEntries_put key value entry member with rfl | old
    · exact fits
    · exact coherent.fits entry old

theorem startFlush
    (quiet : ∀ run ∈ t.flushes, run.isEnded = true) : Coherent t.startFlush content := by
  -- an older run has ended, so a run that has not is the new one
  have last : ∀ (new : FlushRun) (i : Nat) (run : FlushRun), (t.flushes ++ [new])[i]? = some run →
      run.isEnded = false → i = t.flushes.length ∧ run = new := by
    intro new i run found under
    rcases lt_or_ge i t.flushes.length with old | behind
    · rw [List.getElem?_append_left old] at found
      rw [quiet run (mem_of_getElem? found)] at under
      cases under
    · rw [List.getElem?_append_right behind] at found
      have first : i - t.flushes.length = 0 := by
        have bound := (List.getElem?_eq_some_iff.mp found).choose
        rw [length_singleton] at bound
        omega
      rw [first] at found
      exact ⟨by omega, (some.inj found).symm⟩
  rw [Traffic.startFlush]
  split
  case h_1 idle => exact of_only (last .ended) coherent.holds coherent.fits (by simp) (by simp)
  case h_2 table flushing =>
    apply of_only (last (.swapped table))
    case holds =>
      intro key
      rw [view, t.engine.memLayer_swap, t.engine.diskLayer_swap]
      exact coherent.holds key
    case fits => exact fun entry member => coherent.fits entry (t.engine.mem_memEntries_swap entry member)
    case taken =>
      rintro other same
      cases same
      exact flushing
    case covered => simp

theorem set (run : Nat) (old new : FlushRun)
    (found : t.flushes[run]? = some old) (under : old.isEnded = false) (i : Nat) (other : FlushRun)
    (there : (t.flushes.set run new)[i]? = some other) (active : other.isEnded = false) :
    i = run ∧ other = new := by
  by_cases here : i = run
  · subst here
    have self := List.getElem?_set_self'.symm.trans there
    rw [found] at self
    exact ⟨rfl, (some.inj self).symm⟩
  · rw [List.getElem?_set_ne (Ne.symm here)] at there
    exact absurd (coherent.alone i run other old there found active under) here

theorem ended (run : Nat) (old : FlushRun)
    (found : t.flushes[run]? = some old) (under : old.isEnded = false) (after : Engine)
    (holds : ∀ key, (after.view key).join = content key)
    (fits : ∀ entry ∈ after.memEntries, EntryFits entry) :
    Coherent ⟨after, t.flushes.set run .ended, t.lookups⟩ content :=
  of_only (coherent.set run old .ended found under) holds fits nofun nofun

theorem install (run ts : Nat)
    (fresh : ∀ info ∈ t.engine.metas, info.ts ≠ ts) : Coherent (t.install run ts) content := by
  rw [Traffic.install]
  split
  case h_2 => exact coherent
  case h_1 table found =>
    have dirty := coherent.taken run table found
    split_ifs with empty
    · exact coherent.ended run (.swapped table) found rfl t.engine coherent.holds coherent.fits
    · have fits : ∀ entry ∈ table.entries, EntryFits entry :=
        fun entry member => coherent.fits entry (t.engine.dirty_subset_memEntries table dirty entry member)
      have files := diskLayer_writeTable ts table fits fresh
      apply of_only (coherent.set run (.swapped table) .installed found rfl)
      case holds =>
        intro key
        have view : (t.engine.writeTable ts table.entries).view = t.engine.view := by
          rw [view, files]
          change above t.engine.memLayer _ = _
          rw [view, memLayer, t.engine.dirtyLayer_of_dirty dirty, above_assoc,
            above_self, above_assoc]
        rw [view]
        exact coherent.holds key
      case fits => exact coherent.fits
      case taken => simp
      case covered =>
        intro _ other taken
        obtain rfl : table = other := some.inj (dirty.symm.trans taken)
        rw [files, above_self]

theorem drop (run : Nat) : Coherent (t.drop run) content := by
  rw [Traffic.drop]
  split
  case h_2 => exact coherent
  case h_1 found =>
    apply coherent.ended run .installed found rfl
    case holds =>
      intro key
      have view : ({ t.engine with dirty := none } : Engine).view = t.engine.view := by
        cases flushing : t.engine.dirty with
        | none => rw [← flushing]
        | some table =>
          have silent := t.engine.dirtyLayer_of_dirty flushing
          have covered := coherent.covered run table found flushing
          rw [view, memLayer, above_assoc]
          conv_rhs => rw [view, memLayer, above_assoc, silent, covered]
          rfl
      rw [view]
      exact coherent.holds key
    case fits =>
      intro entry member
      apply coherent.fits entry
      rcases mem_append.mp member with active | none
      · exact mem_append_left _ active
      · cases none

theorem step (input : TrafficInput) (admitted : Admitted t input) :
    Coherent (t.step input) (settle content input) := by
  cases input with
  | put key value => exact coherent.put key value admitted
  | delete key => exact coherent.put key none admitted
  | flush => exact coherent.startFlush admitted
  | install run ts => exact coherent.install run ts admitted
  | drop run => exact coherent.drop run
  | call key => exact ⟨coherent.holds, coherent.fits, coherent.alone, coherent.taken, coherent.covered⟩
  | look reader =>
    rw [Traffic.step, Traffic.look]
    split
    · exact ⟨coherent.holds, coherent.fits, coherent.alone, coherent.taken, coherent.covered⟩
    · exact coherent

end

end Coherent

/-- What the lookup will answer was seen: the key had it at some moment of the call. What memory
says about a key that was missed there was written during the call. -/
def Lookup.Heard (e : Engine) (key : Bytes) (seen : Option Bytes → Prop) : Lookup → Prop
  | .called => True
  | .missed => (∀ value, e.memLayer key = some value → seen value) ∧
      (∀ value, e.dirtyLayer key = some value → seen value) ∧ seen (e.diskLayer key).join
  | .reading files => (∀ info ∈ files, info ∈ e.metas) ∧ seen (files.findSome? (e.readMeta key)).join
  | .answered value => seen value

namespace Lookup

variable {e : Engine} {key : Bytes} {seen : Option Bytes → Prop} {lookup : Lookup}

section

variable (heard : lookup.Heard e key seen)
include heard

theorem Heard.mono {more : Option Bytes → Prop}
    (grows : ∀ value, seen value → more value) : lookup.Heard e key more := by
  cases lookup with
  | called => trivial
  | missed =>
    rcases heard with ⟨memory, dirty, files⟩
    exact ⟨fun value said => grows value (memory value said),
      fun value said => grows value (dirty value said), grows _ files⟩
  | reading files => exact ⟨heard.1, grows _ heard.2⟩
  | answered value => exact grows value heard

theorem Heard.put (query : Bytes) (value : Option Bytes)
    (now : query = key → seen value) : lookup.Heard (e.put query value) key seen := by
  cases lookup with
  | called => trivial
  | missed =>
    rcases heard with ⟨memory, dirty, files⟩
    refine ⟨fun said told => ?_, dirty, files⟩
    rw [memLayer_put] at told
    by_cases here : key = query
    · rw [here, above_single_self] at told
      rw [← some.inj told]
      exact now here.symm
    · rw [above_single_of_ne _ _ _ _ here] at told
      exact memory said told
  | reading | answered => exact heard

theorem Heard.swap : lookup.Heard e.swap key seen := by
  cases lookup with
  | called => trivial
  | missed =>
    rcases heard with ⟨memory, dirty, files⟩
    refine ⟨?_, ?_, ?_⟩
    · rw [e.memLayer_swap]
      exact memory
    · rw [Engine.swap]
      split_ifs
      · intro value said
        apply memory value
        exact or_eq_some_iff.mpr (.inl said)
      · exact dirty
    · rw [e.diskLayer_swap]
      exact files
  | reading files =>
    rw [Engine.swap]
    split_ifs
    · exact heard
    · exact heard
  | answered value => exact heard

theorem Heard.writeTable (ts : Nat) (table : MemTable)
    (fits : ∀ entry ∈ table.entries, EntryFits entry) (fresh : ∀ info ∈ e.metas, info.ts ≠ ts)
    (flushing : e.dirty = some table) :
    lookup.Heard (e.writeTable ts table.entries) key seen := by
  cases lookup with
  | called => trivial
  | missed =>
    rcases heard with ⟨memory, dirty, files⟩
    refine ⟨memory, dirty, ?_⟩
    rw [diskLayer_writeTable ts table fits fresh, above]
    cases said : table.lookup key with
    | none => exact files
    | some value =>
      apply dirty value
      rw [dirtyLayer, flushing]
      exact said
  | reading files =>
    rcases heard with ⟨listed, answer⟩
    refine ⟨fun info member => mem_append_left _ (listed info member), ?_⟩
    rw [findSome?_writeTable ts _ files fun info member => fresh info (listed info member)]
    exact answer
  | answered value => exact heard

theorem Heard.drop : lookup.Heard { e with dirty := none } key seen := by
  cases lookup with
  | called => trivial
  | missed =>
    rcases heard with ⟨memory, _, files⟩
    refine ⟨fun value said => memory value ?_, nofun, files⟩
    rcases or_eq_some_iff.mp said with active | ⟨_, none⟩
    · exact or_eq_some_iff.mpr (.inl active)
    · cases none
  | reading | answered => exact heard

theorem Heard.look (now : seen (e.view key).join) : (e.look key lookup).Heard e key seen := by
  rw [view, above] at now
  cases lookup with
  | called =>
    rw [look]
    cases active : e.active.lookup key with
    | some value =>
      rw [memLayer, above, active] at now
      exact now
    | none =>
      cases dirty : e.dirty.bind fun table => table.lookup key with
      | some value =>
        rw [memLayer, above, active, dirtyLayer, dirty] at now
        exact now
      | none =>
        have missed : e.memLayer key = none := by
          rw [memLayer, above, active, dirtyLayer, dirty]
          rfl
        rw [missed] at now
        refine ⟨fun value said => ?_, fun value said => ?_, now⟩
        · rw [missed] at said
          cases said
        · rw [dirtyLayer, dirty] at said
          cases said
  | missed => exact ⟨fun info member => mem_reverse.mp member, heard.2.2⟩
  | reading files =>
    rcases heard with ⟨listed, answer⟩
    cases files with
    | nil => exact answer
    | cons info files =>
      rw [List.findSome?_cons] at answer
      rw [look]
      cases read : e.readMeta key info with
      | some value =>
        rw [read] at answer
        exact answer
      | none =>
        rw [read] at answer
        exact ⟨fun other member => listed other (.tail _ member), answer⟩
  | answered value => exact heard

end

end Lookup

/-- The lookup at a place of the list, with what the key has had since its call. -/
structure Watched (t : Traffic) (reader : Nat) (key : Bytes) (seen : Option Bytes → Prop) : Prop where
  heard : ∃ lookup, t.lookups[reader]? = some (key, lookup) ∧ lookup.Heard t.engine key seen

namespace Watched

variable {t : Traffic} {content : Bytes → Option Bytes} {reader : Nat} {key : Bytes}
  {seen : Option Bytes → Prop}

section

variable (watched : Watched t reader key seen)
include watched

theorem engine (after : Engine) (flushes : List FlushRun)
    (kept : ∀ lookup : Lookup, lookup.Heard t.engine key seen → lookup.Heard after key seen) :
    Watched ⟨after, flushes, t.lookups⟩ reader key seen := by
  rcases watched.heard with ⟨lookup, found, heard⟩
  exact ⟨lookup, found, kept lookup heard⟩

theorem step (coherent : Coherent t content)
    (input : TrafficInput) (admitted : Admitted t input) (before : seen (content key))
    (after : seen (settle content input key)) : Watched (t.step input) reader key seen := by
  cases input with
  | put query | delete query =>
    apply watched.engine
    intro lookup heard
    apply heard.put query
    rintro rfl
    rw [settle, update_self] at after
    exact after
  | flush =>
    rw [Traffic.step, Traffic.startFlush]
    split
    · exact watched.engine _ _ fun _ heard => heard
    · exact watched.engine _ _ fun _ heard => heard.swap
  | install run ts =>
    rw [Traffic.step, Traffic.install]
    split
    case h_2 => exact watched
    case h_1 table found =>
      have flushing := coherent.taken run table found
      split_ifs
      · exact watched.engine _ _ fun _ heard => heard
      · apply watched.engine
        intro lookup heard
        exact heard.writeTable ts table (fun entry member => coherent.fits entry
          (t.engine.dirty_subset_memEntries table flushing entry member)) admitted flushing
  | drop run =>
    rw [Traffic.step, Traffic.drop]
    split
    · exact watched.engine _ _ fun _ heard => heard.drop
    · exact watched
  | call query =>
    rcases watched.heard with ⟨lookup, found, heard⟩
    refine ⟨lookup, ?_, heard⟩
    exact (List.getElem?_append_left (List.getElem?_eq_some_iff.mp found).choose).trans found
  | look other =>
    rcases watched.heard with ⟨lookup, found, heard⟩
    rw [Traffic.step, Traffic.look]
    split
    case h_2 => exact watched
    case h_1 query here there =>
      by_cases same : other = reader
      · subst same
        obtain ⟨rfl, rfl⟩ := Prod.mk.inj (some.inj (found.symm.trans there))
        have now : seen (t.engine.view key).join := by
          rw [coherent.holds]
          exact before
        refine ⟨t.engine.look key lookup, ?_, heard.look now⟩
        exact List.getElem?_set_self (List.getElem?_eq_some_iff.mp found).choose
      · refine ⟨lookup, ?_, heard⟩
        exact (List.getElem?_set_ne same).trans found

/-- Along a run the lookup hears what the key has had behind some of its inputs. -/
theorem run (inputs : List TrafficInput) (coherent : Coherent t content) (now : seen (content key))
    (admitted : Guarded Traffic.step Admitted t inputs) :
    Watched (Lib.run Traffic.step t inputs) reader key fun value =>
      seen value ∨ ∃ first, first <+: inputs ∧ value = contentAfter content first key := by
  induction inputs generalizing t content seen with
  | nil =>
    rcases watched.heard with ⟨lookup, found, heard⟩
    exact ⟨lookup, found, heard.mono fun _ old => .inl old⟩
  | cons input rest ih =>
    let more := fun value => seen value ∨ value = settle content input key
    have grown : Watched t reader key more := by
      rcases watched.heard with ⟨lookup, found, heard⟩
      exact ⟨lookup, found, heard.mono fun _ old => .inl old⟩
    have next := grown.step coherent input admitted.1 (.inl now) (.inr rfl)
    rcases (ih next (coherent.step input admitted.1) (.inr rfl) admitted.2).heard with
      ⟨lookup, found, heard⟩
    refine ⟨lookup, found, heard.mono fun value told => ?_⟩
    rcases told with (old | rfl) | ⟨first, front, rfl⟩
    · exact .inl old
    · exact .inr ⟨[input], prefix_append [input] rest, rfl⟩
    · exact .inr ⟨input :: first, (prefix_cons_inj input).mpr front, rfl⟩

end

end Watched

theorem Coherent.run {t : Traffic} {content : Bytes → Option Bytes} (inputs : List TrafficInput)
    (coherent : Coherent t content) (admitted : Guarded Traffic.step Admitted t inputs) :
    Coherent (Lib.run Traffic.step t inputs) (contentAfter content inputs) := by
  induction inputs generalizing t content with
  | nil => exact coherent
  | cons input rest ih => exact ih (coherent.step input admitted.1) admitted.2

/-- How many steps a lookup has left at most. -/
def Lookup.rank (e : Engine) : Lookup → Nat
  | .called => e.metas.length + 3
  | .missed => e.metas.length + 2
  | .reading files => files.length + 1
  | .answered _ => 0

theorem Lookup.rank_look (e : Engine) (key : Bytes) (lookup : Lookup) (left : lookup.rank e ≠ 0) :
    (e.look key lookup).rank e < lookup.rank e := by
  cases lookup with
  | called =>
    rw [look]
    split
    · exact Nat.succ_pos _
    · split
      · exact Nat.succ_pos _
      · exact Nat.lt_succ_self _
  | missed =>
    rw [look, rank, rank, length_reverse]
    exact Nat.lt_succ_self _
  | reading files =>
    cases files with
    | nil => exact Nat.one_pos
    | cons info files =>
      rw [look]
      split
      · exact Nat.succ_pos _
      · exact Nat.lt_succ_self _
  | answered value => exact absurd rfl left

theorem Traffic.look_of_getElem? (t : Traffic) (reader : Nat) (key : Bytes) (lookup : Lookup)
    (found : t.lookups[reader]? = some (key, lookup)) :
    (t.look reader).engine = t.engine ∧
      (t.look reader).lookups[reader]? = some (key, t.engine.look key lookup) := by
  rw [Traffic.look, found]
  exact ⟨rfl, List.getElem?_set_self (List.getElem?_eq_some_iff.mp found).choose⟩

theorem Traffic.answers (t : Traffic) (reader : Nat) (key : Bytes) (lookup : Lookup)
    (found : t.lookups[reader]? = some (key, lookup)) :
    ∃ n value, (run Traffic.step t (List.replicate n (.look reader))).lookups[reader]? =
      some (key, .answered value) := by
  induction bound : lookup.rank t.engine using Nat.strongRecOn generalizing t lookup with
  | _ bounded ih =>
    by_cases ended : lookup.rank t.engine = 0
    · cases lookup with
      | answered value => exact ⟨0, value, found⟩
      | called | missed | reading _ => exact absurd ended (Nat.succ_ne_zero _)
    · rcases t.look_of_getElem? reader key lookup found with ⟨same, next⟩
      have less := Lookup.rank_look t.engine key lookup ended
      rw [bound] at less
      rcases ih _ less (t.look reader) _ next (by rw [same]) with ⟨n, value, reached⟩
      exact ⟨n + 1, value, reached⟩

/-- Every lookup ends, and it answers what the key had behind some step between its call and its
return. -/
theorem get_linearizable (disk : SortedMap Nat SSTableFile) (before during : List TrafficInput)
    (key : Bytes)
    (admitted : Guarded Traffic.step Admitted (Traffic.new disk) (before ++ .call key :: during)) :
    let reader := (run Traffic.step (Traffic.new disk) before).lookups.length
    let last := run Traffic.step (Traffic.new disk) (before ++ .call key :: during)
    (∀ value, last.lookups[reader]? = some (key, .answered value) →
      ∃ first, first <+: during ∧
        value = contentAfter (new disk).get (before ++ first) key) ∧
    ∃ n value, (run Traffic.step last (List.replicate n (.look reader))).lookups[reader]? =
      some (key, .answered value) := by
  intro reader last
  rcases (guarded_append _ _ _).mp admitted with ⟨early, called, late⟩
  have coherent := (Coherent.new disk).run before early
  let started := (run Traffic.step (Traffic.new disk) before).step (.call key)
  have begun : Watched started reader key fun value =>
      value = contentAfter (new disk).get before key :=
    ⟨.called, List.getElem?_concat_length, trivial⟩
  have heard := begun.run during (coherent.step (.call key) called) rfl late
  have reached : last = run Traffic.step started during := run_append _ _ _ _
  rw [← reached] at heard
  rcases heard.heard with ⟨lookup, found, told⟩
  constructor
  · intro value answered
    obtain ⟨_, rfl⟩ := Prod.mk.inj (some.inj (found.symm.trans answered))
    rcases told with same | ⟨first, front, same⟩
    · exact ⟨[], nil_prefix, by rw [append_nil]; exact same⟩
    · refine ⟨first, front, ?_⟩
      rw [same, contentAfter, contentAfter, contentAfter, foldl_append]
      rfl
  · exact last.answers reader key lookup found

/-- A flush begins and ends while a lookup has missed its key in memory. -/
theorem get_linearizable_across_flush : let k := ascii ['k']
    let before : List TrafficInput := [.put k (some [1]), .flush, .install 0 1, .drop 0]
    let during : List TrafficInput := [.look 0, .put k (some [2]), .flush, .look 0, .install 1 2,
      .drop 1, .look 0]
    let last := run Traffic.step (Traffic.new SortedMap.empty) (before ++ .call k :: during)
    last.lookups[0]? = some (k, .answered (some [1])) ∧
      ∃ first, first <+: during ∧
        some [1] = contentAfter (Engine.new SortedMap.empty).get (before ++ first) k := by
  intro k before during last
  have answered : last.lookups[0]? = some (k, .answered (some [1])) := by decide +kernel
  refine ⟨answered, ?_⟩
  exact (get_linearizable SortedMap.empty before during k (by decide +kernel)).1 (some [1]) answered

theorem readEntry_key_lt (bytes : Bytes) (entry : LogEntry) (rest : Bytes)
    (read : readEntry bytes = some (entry, rest)) : entry.1.length < 2 ^ 32 := by
  rw [readEntry] at read
  split_ifs at read
  rw [readKey] at read
  split_ifs at read
  have bounded : ((bytes.drop 4).take (beValue (bytes.take 4))).length < 2 ^ 32 := by
    have small : beValue (bytes.take 4) < 256 ^ 4 := beValue_slice_lt bytes 0 4
    exact (length_take_le _ _).trans_lt small
  rw [readValue] at read
  split_ifs at read
  · obtain ⟨rfl, _⟩ := Prod.mk.inj (some.inj read)
    exact bounded
  · obtain ⟨rfl, _⟩ := Prod.mk.inj (some.inj read)
    exact bounded

theorem searchEntries_eq_none (key : Bytes) (entries : List LogEntry)
    (others : ∀ entry ∈ entries, entry.1 ≠ key) : searchEntries key entries = none := by
  induction entries with
  | nil => rfl
  | cons entry rest ih =>
    rcases forall_mem_cons.mp others with ⟨here, later⟩
    rw [searchEntries, if_neg here, ih later, ite_self]

theorem readFromSSTable_longKey (data key : Bytes) (long : 2 ^ 32 ≤ key.length) :
    readFromSSTable data key = none := by
  apply searchEntries_eq_none
  intro entry member same
  have small := entryFormat.records_all _ readEntry_key_lt data entry member
  rw [same] at small
  omega

/-- A put, a whole flush and a whole lookup, one after the other. -/
def flushedFirst (key value : Bytes) : List TrafficInput :=
  [.put key (some value), .flush, .install 0 1, .drop 0]

def wholeLookup (reader : Nat) : List TrafficInput := List.replicate 5 (.look reader)

theorem lookup_after_flush (key value : Bytes) (answer : Option (Option Bytes))
    (read : readFromSSTable (entryFormat.encodeAll [(key, some value)]) key = answer)
    (unread : answer.join = none) :
    (run Traffic.step (Traffic.new SortedMap.empty)
      (flushedFirst key value ++ .call key :: wholeLookup 0)).lookups[0]? =
        some (key, .answered none) := by
  let e : Engine := ⟨SortedMap.empty, none, [tableMeta 1 [(key, some value)]],
    SortedMap.empty.insert 1 (tableFile [(key, some value)])⟩
  have reached : run Traffic.step (Traffic.new SortedMap.empty)
      (flushedFirst key value ++ [.call key]) = ⟨e, [.ended], [(key, .called)]⟩ := rfl
  have inFile : e.readMeta key (tableMeta 1 [(key, some value)]) = answer := by
    change (if key < key then none else if key < key then none else
      (e.disk.lookup 1).bind _) = _
    rw [if_neg (lt_irrefl key), if_neg (lt_irrefl key), SortedMap.lookup_insert_self]
    exact read
  have listed : run Traffic.step ⟨e, [.ended], [(key, .called)]⟩ (wholeLookup 0) =
      run Traffic.step ⟨e, [.ended], [(key, e.look key (.reading [tableMeta 1 [(key, some value)]]))]⟩
        [.look 0, .look 0] := rfl
  have whole : flushedFirst key value ++ .call key :: wholeLookup 0 =
      (flushedFirst key value ++ [.call key]) ++ wholeLookup 0 := rfl
  rw [whole, run_append, reached, listed, look, inFile]
  cases answer with
  | none => rfl
  | some value =>
    subst unread
    rfl

theorem contentAfter_flushed (key value : Bytes) (n : Nat) :
    contentAfter (new SortedMap.empty).get
      (flushedFirst key value ++ (wholeLookup 0).take n) key = some value := by
  rw [contentAfter, foldl_append]
  have looking : ∀ content : Bytes → Option Bytes,
      ((wholeLookup 0).take n).foldl settle content = content := by
    intro content
    rw [wholeLookup, take_replicate]
    induction min n 5 with
    | zero => rfl
    | succ m ih => exact ih
  rw [looking]
  exact if_pos rfl

/-- Four ways to read what a key never had during the call: two flushes at the same time, a file
name that is given twice, a value as long as the tombstone mark, and a key too long for its length
field. -/
theorem get_not_linearizable : (let k := ascii ['k']
      let before : List TrafficInput := [.put k (some [1]), .flush, .flush, .install 0 1, .drop 0,
        .put k (some [2]), .flush, .install 1 2, .drop 1]
      (run Traffic.step (Traffic.new SortedMap.empty) (before ++ .call k :: wholeLookup 0)).lookups[0]? =
          some (k, .answered (some [1])) ∧
        ∀ n ≤ 5, contentAfter (new SortedMap.empty).get (before ++ (wholeLookup 0).take n) k =
          some [2]) ∧
    (let k := ascii ['k']
      let before : List TrafficInput := flushedFirst k [1] ++
        [.put (ascii ['z']) (some [2]), .flush, .install 1 1, .drop 1]
      (run Traffic.step (Traffic.new SortedMap.empty) (before ++ .call k :: wholeLookup 0)).lookups[0]? =
          some (k, .answered none) ∧
        ∀ n ≤ 5, contentAfter (new SortedMap.empty).get (before ++ (wholeLookup 0).take n) k =
          some [1]) ∧
    (∃ value : Bytes, value.length = 2 ^ 32 - 1 ∧
      (run Traffic.step (Traffic.new SortedMap.empty)
        (flushedFirst (ascii ['k']) value ++ .call (ascii ['k']) :: wholeLookup 0)).lookups[0]? =
          some (ascii ['k'], .answered none) ∧
      ∀ n, contentAfter (new SortedMap.empty).get
        (flushedFirst (ascii ['k']) value ++ (wholeLookup 0).take n) (ascii ['k']) = some value) ∧
    ∃ key : Bytes, key.length = 2 ^ 32 ∧
      (run Traffic.step (Traffic.new SortedMap.empty)
        (flushedFirst key [1] ++ .call key :: wholeLookup 0)).lookups[0]? = some (key, .answered none) ∧
      ∀ n, contentAfter (Engine.new SortedMap.empty).get
        (flushedFirst key [1] ++ (wholeLookup 0).take n) key = some [1] := by
  refine ⟨by decide +kernel, by decide +kernel, ?_, ?_⟩
  · refine ⟨List.replicate (2 ^ 32 - 1) 0, length_replicate, ?_, contentAfter_flushed _ _⟩
    exact lookup_after_flush _ _ (some none)
      (readFromSSTable_markLength _ _ (by decide) length_replicate) rfl
  · refine ⟨List.replicate (2 ^ 32) 0, length_replicate, ?_, contentAfter_flushed _ _⟩
    exact lookup_after_flush _ _ none
      (readFromSSTable_longKey _ _ (le_of_eq length_replicate.symm)) rfl

end KairosFlux.Storage
