import KairosFlux.Service.TemporalStore
import KairosFlux.Storage.Readers
import KairosFlux.Storage.Retention

/-! Delivery to a sink and retention (`service/delivery`, `service/delivery_bootstrap.go`, `Scan` and
`ReclaimDelivered` of `service/fsm.go`): rounds that fetch a batch behind the cursor, send it, commit
the next cursor and then drop the files below it. -/

namespace KairosFlux.Service

open Lib Temporal Storage List

def reservedPrefix : Bytes := ascii ['_', '_', 'o', 'f', 'f', 's', 'e', 't', '_', '_', '/']

def offsetKey (sink : Bytes) : Bytes := reservedPrefix ++ sink

def maxScanResults : Nat := 10000

/-- The keys that `Scan` passes over. -/
def isInternalKey (key : Bytes) : Bool := (parseVersionStorageKey key).isSome || isCurrentStorageKey key

/-- `Scan` without a predicate. -/
def scan (s : Store) (start stop : Bytes) (limit : Nat) : List (Bytes × Bytes) :=
  ((s.scanRange start stop).filter fun entry => !isInternalKey entry.1).take
    (if limit = 0 ∨ maxScanResults < limit then maxScanResults else limit)

/-- The loop of `Fetch` over the scanned entries, with the last key so far and the batch. -/
def fetchLoop (limit : Nat) (lastScanned : Option Bytes) (batch : List (Bytes × Bytes)) :
    List (Bytes × Bytes) → Option Bytes × List (Bytes × Bytes)
  | [] => (lastScanned, batch)
  | entry :: rest =>
    if reservedPrefix <+: entry.1 then fetchLoop limit (copyKey entry.1) batch rest
    else if limit ≤ (batch ++ [entry]).length then (copyKey entry.1, batch ++ [entry])
    else fetchLoop limit (copyKey entry.1) (batch ++ [entry]) rest

def fetch (s : Store) (cursor : Bytes) (limit : Nat) : List (Bytes × Bytes) × Bytes :=
  match fetchLoop limit none [] (scan s cursor [] (limit + 1)) with
  | (none, batch) => (batch, cursor)
  | (some lastScanned, batch) => (batch, lastScanned ++ [0])

def reclaimDelivered (s : Store) (bound : Bytes) : Store :=
  if bound = [] then s
  else s.reclaimUpTo (if reservedPrefix < bound then reservedPrefix else bound)

theorem reclaimDelivered_eq (s : Store) (next : Bytes) (nonempty : next ≠ []) :
    ∃ bound, bound ≠ [] ∧ bound ≤ next ∧ bound ≤ reservedPrefix ∧
      reclaimDelivered s next = s.reclaimUpTo bound := by
  rw [reclaimDelivered, if_neg nonempty]
  split_ifs with above
  · exact ⟨reservedPrefix, by decide, above.le, le_rfl, rfl⟩
  · exact ⟨next, nonempty, le_rfl, not_lt.mp above, rfl⟩

/-- Where `deliverOnce` stands. -/
inductive Round
  | idle
  | fetched (batch : List (Bytes × Bytes)) (next : Bytes)
  | sent (next : Bytes)
  | committed (next : Bytes)
  deriving DecidableEq

def Round.next : Round → Option Bytes
  | .idle => none
  | .fetched _ next => some next
  | .sent next => some next
  | .committed next => some next

def Round.batch : Round → List (Bytes × Bytes)
  | .fetched batch _ => batch
  | _ => []

/-- `delivered` is what was handed to the sink in a `Send` that returned nil. -/
structure Delivery where
  machine : Machine
  cursor : Bytes
  round : Round
  delivered : List (Bytes × Bytes)

namespace Delivery

def new : Delivery := ⟨Machine.new, [], .idle, []⟩

def store (d : Delivery) : Store := d.machine.store

def write (d : Delivery) (key value : Bytes) : Delivery :=
  { d with machine := { d.machine with store := d.machine.store.put key (some value) } }

end Delivery

/-- `version` and `current` are the two writes of a `PUT_VERSIONED`. -/
inductive DeliveryInput
  | put (key value : Bytes)
  | version (v : Version)
  | current (v : Version)
  | flushStep (now : Nat)
  | fetch
  | send (ok : Bool)
  | commit (ok : Bool)
  | reclaim

section Steps

variable (choice : BloomChoice) (sink : Bytes) (batchSize : Nat)

-- An empty batch ends the round, and the cursor stays.
def deliveryStep (d : Delivery) : DeliveryInput → Delivery
  | .put key value => d.write key value
  | .version v => d.write (versionStorageKey v.logicalKey v.seq) (encodeVersionRecord v)
  | .current v => d.write (currentStorageKey v.logicalKey) (encodeCurrentValue (currentValueOf v))
  | .flushStep now => { d with machine := Storage.flushStep choice now d.machine }
  | .fetch =>
    match d.round with
    | .idle =>
      let fetched := fetch d.store d.cursor (max batchSize 1)
      if fetched.1 = [] then d else { d with round := .fetched fetched.1 fetched.2 }
    | _ => d
  | .send ok =>
    match d.round with
    | .fetched batch next =>
      if ok then { d with round := .sent next, delivered := d.delivered ++ batch }
      else { d with round := .idle }
    | _ => d
  | .commit ok =>
    match d.round with
    | .sent next =>
      if ok then { d.write (offsetKey sink) next with round := .committed next }
      else { d with round := .idle }
    | _ => d
  | .reclaim =>
    match d.round with
    | .committed next =>
      { d with
        machine := { d.machine with store := reclaimDelivered d.store next }
        cursor := next
        round := .idle }
    | _ => d

end Steps

/-- By a lookup, or by one of the raw scans of `ListVersions` and `ListWrites`. -/
def Reads (s : Store) (key value : Bytes) : Prop :=
  s.get key = some value ∨ ∃ start stop, (key, value) ∈ s.scanRange start stop

variable (s : Store) (tables : List StoredTable) (key cursor : Bytes) (limit : Nat) (value : Option Bytes)

theorem fetchLoop_spec (entries : List (Bytes × Bytes)) (lastScanned : Option Bytes)
    (batch : List (Bytes × Bytes)) :
    ∃ taken, taken <+: entries ∧ (fetchLoop limit lastScanned batch entries).1 =
        (taken.getLast?.elim lastScanned fun entry => copyKey entry.1) ∧
      (fetchLoop limit lastScanned batch entries).2 =
        batch ++ taken.filter (fun entry => ¬ reservedPrefix <+: entry.1) ∧
      (taken = entries ∨ limit ≤ (fetchLoop limit lastScanned batch entries).2.length) := by
  induction entries generalizing lastScanned batch with
  | nil => exact ⟨[], prefix_rfl, rfl, (append_nil batch).symm, .inl rfl⟩
  | cons entry entries ih =>
    -- The loop goes on behind this entry with the batch `more`.
    have goesOn : ∀ more, ∃ taken, entry :: taken <+: entry :: entries ∧
        (fetchLoop limit (copyKey entry.1) more entries).1 =
          ((entry :: taken).getLast?.elim lastScanned fun entry => copyKey entry.1) ∧
        (fetchLoop limit (copyKey entry.1) more entries).2 =
          more ++ taken.filter (fun entry => ¬ reservedPrefix <+: entry.1) ∧
        (entry :: taken = entry :: entries ∨
          limit ≤ (fetchLoop limit (copyKey entry.1) more entries).2.length) := by
      intro more
      rcases ih (copyKey entry.1) more with ⟨taken, front, last, filtered, ends⟩
      refine ⟨taken, (prefix_cons_inj entry).mpr front, ?_, filtered,
        ends.imp_left (congrArg (List.cons entry))⟩
      rw [last, List.getLast?_cons]
      cases taken.getLast? <;> rfl
    rw [fetchLoop]
    split_ifs with reserved full
    · rcases goesOn batch with ⟨taken, front, last, filtered, ends⟩
      refine ⟨entry :: taken, front, last, ?_, ends⟩
      rw [filtered, filter_cons_of_neg (by simpa using reserved)]
    · refine ⟨[entry], prefix_append [entry] entries, rfl, ?_, .inr full⟩
      rw [filter_cons_of_pos (by simpa using reserved), filter_nil]
    · rcases goesOn (batch ++ [entry]) with ⟨taken, front, last, filtered, ends⟩
      refine ⟨entry :: taken, front, last, ?_, ends⟩
      rw [filtered, filter_cons_of_pos (by simpa using reserved), append_assoc]
      rfl

theorem copyKey_eq_some (copy : Bytes) (copied : copyKey key = some copy) : key = copy := by
  cases key with
  | nil => cases copied
  | cons first rest => exact Option.some.inj copied

theorem copyKey_eq_none (lost : copyKey key = none) : key = [] := by
  cases key with
  | nil => rfl
  | cons first rest => cases lost

theorem fetch_spec : ∃ taken, taken <+: scan s cursor [] (limit + 1) ∧
      (fetch s cursor limit).1 = taken.filter (fun entry => ¬ reservedPrefix <+: entry.1) ∧
      (taken = scan s cursor [] (limit + 1) ∨ limit ≤ (fetch s cursor limit).1.length) ∧
      ((fetch s cursor limit).2 = cursor ∧ (∀ final ∈ taken.getLast?, final.1 = []) ∨
        ∃ final ∈ taken.getLast?, (fetch s cursor limit).2 = final.1 ++ [0]) := by
  rcases fetchLoop_spec limit (scan s cursor [] (limit + 1)) none [] with
    ⟨taken, front, last, filtered, ends⟩
  refine ⟨taken, front, ?_⟩
  rw [fetch]
  split
  case h_1 batch looped =>
    rw [looped] at filtered last ends
    refine ⟨filtered, ends, .inl ⟨rfl, fun final ending => ?_⟩⟩
    rw [Option.mem_def.mp ending] at last
    exact copyKey_eq_none final.1 last.symm
  case h_2 lastScanned batch looped =>
    rw [looped] at filtered last ends
    refine ⟨filtered, ends, .inr ?_⟩
    cases ending : taken.getLast? with
    | none =>
      rw [ending] at last
      cases last
    | some final =>
      rw [ending] at last
      exact ⟨final, rfl, by rw [copyKey_eq_some final.1 lastScanned last.symm]⟩

theorem mem_of_sorted_le (taken rest : List (Bytes × Bytes)) (final entry : Bytes × Bytes)
    (sorted : (taken ++ rest).Pairwise KeyLt) (last : final ∈ taken) (member : entry ∈ taken ++ rest)
    (upTo : entry.1 ≤ final.1) : entry ∈ taken := by
  rcases mem_append.mp member with here | behind
  · exact here
  · have less : final.1 < entry.1 := (pairwise_append.mp sorted).2.2 final last entry behind
    exact absurd less (not_lt.mpr upTo)

theorem le_getLast (rows : List (Bytes × Bytes)) (sorted : rows.Pairwise KeyLt)
    (final : Bytes × Bytes) (last : final ∈ rows.getLast?) (row : Bytes × Bytes) (member : row ∈ rows) :
    row.1 ≤ final.1 := by
  rcases rows.eq_nil_or_concat' with rfl | ⟨front, tail, rfl⟩
  · cases member
  · rw [List.getLast?_concat] at last
    obtain rfl := Option.some.inj last
    rcases mem_append.mp member with earlier | here
    · have less : row.1 < tail.1 :=
        (pairwise_append.mp sorted).2.2 row earlier tail (.head _)
      exact less.le
    · rw [mem_singleton.mp here]

theorem reservedPrefix_le (reserved : reservedPrefix <+: key) : reservedPrefix ≤ key := by
  rcases reserved with ⟨tail, rfl⟩
  exact le_append reservedPrefix tail

theorem scan_prefix_visible (start stop : Bytes) (limit : Nat) : scan s start stop limit <+:
      (s.scanRange start stop).filter fun entry => !isInternalKey entry.1 :=
  take_prefix _ _

theorem mem_fetch (entry : Bytes × Bytes)
    (sorted : (s.scanRange cursor []).Pairwise KeyLt) (member : entry ∈ s.scanRange cursor [])
    (visible : isInternalKey entry.1 = false) (unreserved : ¬ reservedPrefix <+: entry.1)
    (passed : entry.1 < (fetch s cursor limit).2) :
    entry ∈ (fetch s cursor limit).1 ∨ entry.1 < cursor := by
  rcases fetch_spec s cursor limit with
    ⟨taken, front, filtered, _, ⟨stays, _⟩ | ⟨final, last, moves⟩⟩
  · rw [stays] at passed
    exact .inr passed
  · left
    rcases front.trans (scan_prefix_visible s cursor [] (limit + 1)) with ⟨rest, split⟩
    have listed : entry ∈ taken := by
      apply mem_of_sorted_le taken rest final entry
      · rw [split]
        exact sorted.filter _
      · exact mem_of_getLast? last
      · rw [split]
        exact mem_filter.mpr ⟨member, by rw [visible]; rfl⟩
      · rw [moves, lt_append_zero_iff] at passed
        exact passed
    rw [filtered]
    exact mem_filter.mpr ⟨listed, decide_eq_true unreserved⟩

theorem fetch_next_ne_nil (named : ∀ entry ∈ s.scanRange cursor [], entry.1 ≠ [])
    (some : (fetch s cursor limit).1 ≠ []) : (fetch s cursor limit).2 ≠ [] := by
  rcases fetch_spec s cursor limit with ⟨taken, front, filtered, _, ⟨_, lost⟩ | ⟨final, _, moves⟩⟩
  · rcases taken.eq_nil_or_concat' with rfl | ⟨rest, final, rfl⟩
    · exact absurd filtered some
    · have scanned : final ∈ s.scanRange cursor [] := by
        apply (mem_filter.mp ((scan_prefix_visible s cursor [] (limit + 1)).subset _)).1
        exact front.subset (mem_append_right _ (.head _))
      exact absurd (lost final List.getLast?_concat) (named final scanned)
  · rw [moves]
    exact append_ne_nil_of_right_ne_nil _ (cons_ne_nil _ _)

def contents (s : Store) (tables : List StoredTable) : List LogEntry :=
  s.active.entries ++ s.dirtyEntries ++ tables.flatMap fun t => t.table.entries

theorem mem_contents : (key, value) ∈ contents s tables ↔ s.active.lookup key = some value ∨
        (s.dirty.bind fun table => table.lookup key) = some value ∨
          ∃ t ∈ tables, t.table.lookup key = some value := by
  have dirty : (key, value) ∈ s.dirtyEntries ↔
      (s.dirty.bind fun table => table.lookup key) = some value := by
    rw [Store.dirtyEntries]
    cases s.dirty with
    | none => simp
    | some table => exact table.mem_entries_iff key value
  simp only [contents, mem_append, mem_flatMap, SortedMap.mem_entries_iff, dirty, or_assoc]

theorem mem_contents_of_layer (said : Layer.above s.memLayer (tablesLayer tables) key = some value) :
    (key, value) ∈ contents s tables := by
  rw [mem_contents]
  rcases Option.or_eq_some_iff.mp said with memory | ⟨_, files⟩
  · rcases Option.or_eq_some_iff.mp memory with active | ⟨_, dirty⟩
    · exact .inl active
    · exact .inr (.inl dirty)
  · rcases Stored.mem_of_tablesLayer tables key value files with ⟨t, member, held⟩
    exact .inr (.inr ⟨t, member, (t.table.mem_entries_iff key value).mp held⟩)

theorem layer_ne_none_of_contents (held : (key, value) ∈ contents s tables) :
    Layer.above s.memLayer (tablesLayer tables) key ≠ none := by
  rw [Ne, Layer.above_eq_none]
  rintro ⟨memory, files⟩
  rcases Option.or_eq_none_iff.mp memory with ⟨active, dirty⟩
  rcases (mem_contents s tables key value).mp held with absent | absent | ⟨t, member, speaks⟩
  · cases active.symm.trans absent
  · cases dirty.symm.trans absent
  · have listed : t.table.lookup ∈ tables.map fun t => t.table.lookup :=
      mem_map.mpr ⟨t, member, rfl⟩
    apply Layer.stack_ne_none _ _ listed key _ files
    rw [speaks]
    nofun

/-- No key is written twice with different values below the reserved keys, and what lies there is
visible to `Scan`. -/
structure Plain (entries : List LogEntry) : Prop where
  filled : ∀ entry ∈ entries, entry.1 ≠ [] ∧ entry.2 ≠ some []
  visible : ∀ entry ∈ entries, entry.1 < reservedPrefix → isInternalKey entry.1 = false
  single : ∀ first ∈ entries, ∀ second ∈ entries, first.1 = second.1 → first.1 < reservedPrefix →
    first.2 = second.2

theorem Plain.mono {entries fewer : List LogEntry} (plain : Plain entries) (inside : fewer ⊆ entries) :
    Plain fewer where
  filled entry member := plain.filled entry (inside member)
  visible entry member := plain.visible entry (inside member)
  single first member second other := plain.single first (inside member) second (inside other)

section Reading

variable {choice : BloomChoice} {tables : List StoredTable} {s : Store}

theorem mem_contents_of_get (stored : Stored choice s.metas s.disk tables) (key value : Bytes)
    (found : s.get key = some value) : (key, some value) ∈ contents s tables := by
  rw [stored.get_layer, Option.join_eq_some_iff] at found
  exact mem_contents_of_layer s tables key _ found

theorem get_of_mem_contents (stored : Stored choice s.metas s.disk tables)
    (plain : Plain (contents s tables)) (key value : Bytes) (below : key < reservedPrefix)
    (held : (key, some value) ∈ contents s tables) : s.get key = some value := by
  rcases Option.ne_none_iff_exists'.mp (layer_ne_none_of_contents s tables key _ held) with
    ⟨found, said⟩
  have other := mem_contents_of_layer s tables key found said
  have same : found = some value := plain.single (key, found) other (key, some value) held rfl below
  rw [stored.get_layer, said, same]
  rfl

theorem copiesMemory_of_filled
    (filled : ∀ entry ∈ contents s tables, entry.1 ≠ [] ∧ entry.2 ≠ some []) (start stop : Bytes) :
    s.CopiesMemory start stop := by
  constructor
  · intro entry member _
    exact filled entry (mem_append_left _ (mem_append_left _ member))
  · intro table flushing entry member _
    apply filled entry
    apply mem_append_left
    apply mem_append_right
    rw [Store.dirtyEntries, Option.mem_def.mp flushing]
    exact member

theorem get_of_reads (stored : Stored choice s.metas s.disk tables)
    (plain : Plain (contents s tables)) (key value : Bytes) (read : Reads s key value) :
    s.get key = some value := by
  rcases read with found | ⟨start, stop, seen⟩
  · exact found
  · exact ((stored.mem_scanRange start stop (copiesMemory_of_filled plain.filled start stop) key value).mp seen).2

end Reading

/-- A key that a sink does not get, or one behind the cursor that no older table has. -/
def Arriving (d : Delivery) (key : Bytes) : Prop :=
  reservedPrefix ≤ key ∨
    (isInternalKey key = false ∧ d.cursor ≤ key ∧ (∀ next ∈ d.round.next, next ≤ key) ∧
      (d.store.dirty.bind fun table => table.lookup key) = none ∧ d.store.getFromFiles key = none)
deriving Decidable

/-- In the order of their keys and once only do plain values arrive below the reserved keys, and
versions do not. -/
def KeyOrdered (sink : Bytes) (d : Delivery) : DeliveryInput → Prop
  | .put key value => EntryFits (key, some value) ∧ key ≠ [] ∧ value ≠ [] ∧ Arriving d key
  | .version v =>
    EntryFits (versionStorageKey v.logicalKey v.seq, some (encodeVersionRecord v)) ∧
      reservedPrefix ≤ versionStorageKey v.logicalKey v.seq
  | .current v =>
    EntryFits (currentStorageKey v.logicalKey, some (encodeCurrentValue (currentValueOf v))) ∧
      reservedPrefix ≤ currentStorageKey v.logicalKey
  | .flushStep now => Timely d.machine (.flushStep now) ∧ Roomy d.machine (.flushStep now)
  | .commit _ => ∀ next ∈ d.round.next, EntryFits (offsetKey sink, some next)
  | _ => True

instance (sink : Bytes) (d : Delivery) (input : DeliveryInput) : Decidable (KeyOrdered sink d input) := by
  cases input <;> dsimp only [KeyOrdered] <;> infer_instance

/-- What the cursor has passed is delivered, and what the next one passes is delivered or fetched. -/
structure Delivering (choice : BloomChoice) (d : Delivery) (tables : List StoredTable) : Prop where
  kept : Storage.Kept choice d.machine tables
  idle : d.machine.compact = .idle
  plain : Plain (contents d.store tables)
  delivered : ∀ key value, (key, some value) ∈ contents d.store tables → key < reservedPrefix →
    key < d.cursor → (key, value) ∈ d.delivered
  handed : ∀ key value, (key, some value) ∈ contents d.store tables → key < reservedPrefix →
    ∀ next ∈ d.round.next, key < next → (key, value) ∈ d.delivered ++ d.round.batch
  moving : ∀ next ∈ d.round.next, next ≠ []

namespace Delivering

variable {choice : BloomChoice} {sink : Bytes} {batchSize : Nat} {d : Delivery}
  {tables : List StoredTable}

theorem new : Delivering choice Delivery.new [] where
  kept := Storage.Kept.new
  idle := rfl
  plain := ⟨nofun,
    nofun, nofun⟩
  delivered _ _ member := nomatch member
  handed _ _ member := nomatch member
  moving _ moves := by cases moves

theorem store (delivering : Delivering choice d tables) (m : Machine) (after : List StoredTable)
    (kept : Storage.Kept choice m after) (idle : m.compact = .idle)
    (fewer : contents m.store after ⊆ contents d.store tables) :
    Delivering choice { d with machine := m } after where
  kept := kept
  idle := idle
  plain := delivering.plain.mono fewer
  delivered key value held := delivering.delivered key value (fewer held)
  handed key value held := delivering.handed key value (fewer held)
  moving := delivering.moving

theorem mem_contents_write (key value : Bytes) (entry : LogEntry)
    (held : entry ∈ contents (d.write key value).store tables) :
    entry = (key, some value) ∨ entry ∈ contents d.store tables := by
  rcases mem_append.mp held with memory | files
  · rcases mem_append.mp memory with active | dirty
    · rcases SortedMap.mem_insertIn key (some value) _ entry active with new | old
      · exact .inl new
      · exact .inr (mem_append_left _ (mem_append_left _ old))
    · exact .inr (mem_append_left _ (mem_append_right _ dirty))
  · exact .inr (mem_append_right _ files)

theorem mem_contents_write_self (stored : Stored choice d.store.metas d.store.disk tables)
    (key value : Bytes) (other : Option Bytes)
    (dirty : (d.store.dirty.bind fun table => table.lookup key) = none)
    (files : d.store.getFromFiles key = none)
    (held : (key, other) ∈ contents (d.write key value).store tables) : other = some value := by
  rcases (mem_contents _ tables key other).mp held with active | inDirty | ⟨t, member, speaks⟩
  · have new := (SortedMap.lookup_insert_self d.store.active key (some value)).symm.trans active
    exact (Option.some.inj new).symm
  · cases dirty.symm.trans inDirty
  · rw [Store.getFromFiles, List.findSome?_eq_none_iff] at files
    have silent := files t.info (mem_reverse.mpr (stored.info_mem t member))
    rw [stored.readFile_info t member key] at silent
    cases silent.symm.trans speaks

section

variable (delivering : Delivering choice d tables)
include delivering

theorem write_plain (key value : Bytes) (named : key ≠ [])
    (filled : value ≠ []) (arriving : Arriving d key) :
    Plain (contents (d.write key value).store tables) where
  filled entry held := by
    rcases mem_contents_write key value entry held with rfl | old
    · exact ⟨named, fun empty => filled (Option.some.inj empty)⟩
    · exact delivering.plain.filled entry old
  visible entry held below := by
    rcases mem_contents_write key value entry held with rfl | old
    · rcases arriving with reserved | ⟨visible, _⟩
      · exact absurd below (not_lt.mpr reserved)
      · exact visible
    · exact delivering.plain.visible entry old below
  single := by
    rintro ⟨first, firstValue⟩ held ⟨second, secondValue⟩ other same below
    obtain rfl : first = second := same
    by_cases written : first = key
    · subst written
      rcases arriving with reserved | ⟨_, _, _, dirty, files⟩
      · exact absurd below (not_lt.mpr reserved)
      · have stored := delivering.kept.stored
        calc
          firstValue = some value := mem_contents_write_self stored _ _ _ dirty files held
          _ = secondValue := (mem_contents_write_self stored _ _ _ dirty files other).symm
    · have old : ∀ content, (first, content) ∈ contents (d.write key value).store tables →
          (first, content) ∈ contents d.store tables := by
        intro content inside
        rcases mem_contents_write key value _ inside with new | old
        · exact absurd (congrArg Prod.fst new) written
        · exact old
      exact delivering.plain.single _ (old _ held) _ (old _ other) rfl below

theorem write (key value : Bytes)
    (fits : EntryFits (key, some value)) (named : key ≠ []) (filled : value ≠ [])
    (arriving : Arriving d key) : Delivering choice (d.write key value) tables where
  __ := delivering
  kept := delivering.kept.put key (some value) fits
  plain := delivering.write_plain key value named filled arriving
  delivered other content held below passed := by
    rcases mem_contents_write key value _ held with new | old
    · cases new
      rcases arriving with reserved | ⟨_, behind, _⟩
      · exact absurd below (not_lt.mpr reserved)
      · exact absurd passed (not_lt.mpr behind)
    · exact delivering.delivered other content old below passed
  handed other content held below next moves passed := by
    rcases mem_contents_write key value _ held with new | old
    · cases new
      rcases arriving with reserved | ⟨_, _, behind, _⟩
      · exact absurd below (not_lt.mpr reserved)
      · exact absurd passed (not_lt.mpr (behind next moves))
    · exact delivering.handed other content old below next moves passed

theorem flushStep (now : Nat)
    (timely : Timely d.machine (.flushStep now)) (roomy : Roomy d.machine (.flushStep now)) :
    ∃ after, Delivering choice { d with machine := Storage.flushStep choice now d.machine } after := by
  have kept := delivering.kept
  have idle := delivering.idle
  rcases d with ⟨m, cursor, round, delivered⟩
  have move := flushStep_move choice now m
  generalize Storage.flushStep choice now m = moved at move
  cases move with
  | stay => exact ⟨tables, delivering⟩
  | swap _ =>
    refine ⟨tables, delivering.store _ tables kept.swap idle ?_⟩
    intro entry held
    rw [contents, Store.swap] at held
    split_ifs at held with ready
    · rcases mem_append.mp held with memory | files
      · exact mem_append_left _ (mem_append_left _ memory)
      · exact mem_append_right _ files
    · exact held
  | retire => exact ⟨tables, delivering.store _ tables kept.retire idle (List.Subset.refl _)⟩
  | name table swapped flushing _ =>
    refine ⟨tables, delivering.store _ tables (kept.name now (timely swapped) ?_) idle
      (List.Subset.refl _)⟩
    rw [idle]
    rfl
  | install ts table named flushing =>
    refine ⟨_, delivering.store _ _ (kept.installFlush ts table named
      (kept.dirty_fits table flushing roomy)) idle ?_⟩
    -- The file has what the dirty table has.
    have copied : table.entries ⊆ contents m.store tables := by
      intro entry member
      apply mem_append_left
      apply mem_append_right
      rw [Store.dirtyEntries, flushing]
      exact member
    intro entry held
    rw [contents, flatMap_append, ← append_assoc, mem_append, flatMap_singleton] at held
    exact held.elim (fun old => old) fun new => copied new
  | drop _ =>
    refine ⟨tables, delivering.store _ tables kept.drop idle ?_⟩
    intro entry held
    rcases mem_append.mp held with memory | files
    · rcases mem_append.mp memory with active | none
      · exact mem_append_left _ (mem_append_left _ active)
      · cases none
    · exact mem_append_right _ files

theorem fetch (limit : Nat) (some : (Service.fetch d.store d.cursor limit).1 ≠ []) :
    Delivering choice { d with
      round := .fetched (Service.fetch d.store d.cursor limit).1
        (Service.fetch d.store d.cursor limit).2 } tables where
  __ := delivering
  handed key value held below next moves passed := by
    obtain rfl := Option.some.inj moves
    have stored := delivering.kept.stored
    apply mem_append.mpr
    by_cases old : key < d.cursor
    · exact .inl (delivering.delivered key value held below old)
    · right
      have seen : (key, value) ∈ d.store.scanRange d.cursor [] := by
        apply (stored.mem_scanRange _ _ (copiesMemory_of_filled delivering.plain.filled _ _) key value).mpr
        exact ⟨⟨not_lt.mp old, .inl rfl⟩,
          get_of_mem_contents stored delivering.plain key value below held⟩
      have visible := delivering.plain.visible _ held below
      have sorted := visited_sorted _ (stored.scanFeeds_sound d.cursor [])
      have unreserved : ¬ reservedPrefix <+: key := fun reserved =>
        absurd below (not_lt.mpr (reservedPrefix_le key reserved))
      exact (mem_fetch d.store d.cursor limit (key, value) sorted seen visible unreserved
        passed).resolve_right old
  moving next moves := by
    obtain rfl := Option.some.inj moves
    apply fetch_next_ne_nil d.store d.cursor limit _ some
    rintro ⟨key, value⟩ seen
    have stored := delivering.kept.stored
    have copies := copiesMemory_of_filled delivering.plain.filled d.cursor []
    have found := ((stored.mem_scanRange _ _ copies key value).mp seen).2
    exact (delivering.plain.filled _ (mem_contents_of_get stored key value found)).1

theorem send (batch : List (Bytes × Bytes)) (next : Bytes)
    (fetched : d.round = .fetched batch next) :
    Delivering choice { d with round := .sent next, delivered := d.delivered ++ batch } tables where
  __ := delivering
  delivered key value held below passed :=
    mem_append_left _ (delivering.delivered key value held below passed)
  handed key value held below other moves passed := by
    have handed := delivering.handed key value held below other
    rw [fetched] at handed
    exact mem_append_left _ (handed moves passed)
  moving := by
    have moving := delivering.moving
    rw [fetched] at moving
    exact moving

theorem giveUp : Delivering choice { d with round := .idle } tables where
  __ := delivering
  handed _ _ _ _ _ moves := by cases moves
  moving _ moves := by cases moves

theorem commit (next : Bytes) (sent : d.round = .sent next) :
    Delivering choice { d with round := .committed next } tables where
  __ := delivering
  handed key value held below other moves passed := by
    have handed := delivering.handed key value held below other
    rw [sent] at handed
    exact handed moves passed
  moving := by
    have moving := delivering.moving
    rw [sent] at moving
    exact moving

theorem reclaim (next : Bytes) (committed : d.round = .committed next) : ∃ after, Delivering choice
      { d with machine := { d.machine with store := reclaimDelivered d.store next }
               cursor := next, round := .idle } after := by
  have moved : Delivering choice { d with cursor := next, round := .idle } tables := by
    exact { delivering with
      delivered := by
        intro key value held below passed
        have handed := delivering.handed key value held below next
        rw [committed] at handed
        exact (append_nil d.delivered) ▸ handed rfl passed
      handed := nofun
      moving := nofun }
  have nonempty : next ≠ [] := delivering.moving next (by rw [committed]; rfl)
  rcases reclaimDelivered_eq d.store next nonempty with ⟨bound, some, _, _, dropped⟩
  rw [dropped]
  refine ⟨_, moved.store _ _ (delivering.kept.reclaim delivering.idle bound some) delivering.idle ?_⟩
  rcases d.store.reclaimUpTo_memory bound with ⟨active, dirty⟩
  intro entry held
  rw [contents, Store.dirtyEntries] at held
  rcases mem_append.mp held with memory | files
  · apply mem_append_left
    rw [active, dirty] at memory
    exact memory
  · apply mem_append_right
    rcases mem_flatMap.mp files with ⟨t, left, inside⟩
    exact mem_flatMap.mpr ⟨t, (mem_filter.mp left).1, inside⟩

theorem reclaim_delivered (next : Bytes)
    (committed : d.round = .committed next) (key value : Bytes) (read : Reads d.store key value)
    (lost : ¬ Reads (reclaimDelivered d.store next) key value) : (key, value) ∈ d.delivered := by
  have stored := delivering.kept.stored
  have found := get_of_reads stored delivering.plain key value read
  have nonempty : next ≠ [] := delivering.moving next (by rw [committed]; rfl)
  rcases reclaimDelivered_eq d.store next nonempty with ⟨bound, _, upToNext, upToReserved, dropped⟩
  have below : key < bound := by
    by_contra above
    apply lost
    left
    have exact := delivering.kept.metas_eq (by rw [delivering.idle]; rfl)
    calc
      (reclaimDelivered d.store next).get key = (d.store.reclaimUpTo bound).get key := by rw [dropped]
      _ = d.store.get key := stored.get_of_le exact bound key (not_lt.mp above)
      _ = some value := found
  have handed := delivering.handed key value (mem_contents_of_get stored key value found)
    (below.trans_le upToReserved) next
  rw [committed] at handed
  exact (append_nil d.delivered) ▸ handed rfl (below.trans_le upToNext)

theorem step (input : DeliveryInput) (ordered : KeyOrdered sink d input) :
    ∃ after, Delivering choice (deliveryStep choice sink batchSize d input) after := by
  cases input with
  | put key value =>
    rcases ordered with ⟨fits, named, filled, arriving⟩
    exact ⟨tables, delivering.write key value fits named filled arriving⟩
  | version v =>
    rcases ordered with ⟨fits, reserved⟩
    refine ⟨tables, delivering.write _ _ fits ?_ ?_ (.inl reserved)⟩
    · simp [versionStorageKey, versionSep, ascii]
    · exact ne_nil_of_length_pos (by simp [encodeVersionRecord])
  | current v =>
    rcases ordered with ⟨fits, reserved⟩
    refine ⟨tables, delivering.write _ _ fits ?_ ?_ (.inl reserved)⟩
    · simp [currentStorageKey, currentSuffix, ascii]
    · exact ne_nil_of_length_pos (by simp [encodeCurrentValue])
  | flushStep now => exact delivering.flushStep now ordered.1 ordered.2
  | fetch =>
    rw [deliveryStep]
    split
    · simp only
      split_ifs with none
      · exact ⟨tables, delivering⟩
      · exact ⟨tables, delivering.fetch _ none⟩
    · exact ⟨tables, delivering⟩
  | send ok =>
    rw [deliveryStep]
    split
    case h_1 batch next fetched =>
      split_ifs
      · exact ⟨tables, delivering.send batch next fetched⟩
      · exact ⟨tables, delivering.giveUp⟩
    case h_2 => exact ⟨tables, delivering⟩
  | commit ok =>
    rw [deliveryStep]
    split
    case h_1 next sent =>
      split_ifs
      · have moves : next ∈ d.round.next := by rw [sent]; rfl
        have named : offsetKey sink ≠ [] := by simp [offsetKey, reservedPrefix, ascii]
        have written := delivering.write (offsetKey sink) next (ordered next moves) named
          (delivering.moving next moves) (.inl (reservedPrefix_le _ (prefix_append _ _)))
        exact ⟨tables, written.commit next sent⟩
      · exact ⟨tables, delivering.giveUp⟩
    case h_2 => exact ⟨tables, delivering⟩
  | reclaim =>
    rw [deliveryStep]
    split
    case h_1 next committed => exact delivering.reclaim next committed
    case h_2 => exact ⟨tables, delivering⟩

end

theorem run (inputs : List DeliveryInput)
    (ordered : Guarded (deliveryStep choice sink batchSize) (KeyOrdered sink) Delivery.new inputs) :
    ∃ tables, Delivering choice (Lib.run (deliveryStep choice sink batchSize) Delivery.new inputs)
      tables :=
  @Guarded.invariant _ _ (deliveryStep choice sink batchSize) (KeyOrdered sink)
    (fun d => ∃ tables, Delivering choice d tables)
    (fun _ input delivering condition =>
      delivering.elim fun _ inner => inner.step input condition)
    Delivery.new inputs ⟨[], new⟩ ordered

end Delivering

/-- In every run in which plain values below the reserved keys arrive once and in the order of their
keys, and versions above them, a reclaim takes away what was handed to the sink and nothing else. -/
theorem reclaim_drops_delivered (choice : BloomChoice) (sink : Bytes) (batchSize : Nat)
    (inputs : List DeliveryInput)
    (ordered : Guarded (deliveryStep choice sink batchSize) (KeyOrdered sink) Delivery.new inputs) :
    let d := run (deliveryStep choice sink batchSize) Delivery.new inputs
    ∀ key value, Reads d.store key value →
      ¬ Reads (deliveryStep choice sink batchSize d .reclaim).store key value →
        (key, value) ∈ d.delivered := by
  intro d key value read lost
  rcases Delivering.run inputs ordered with ⟨tables, delivering⟩
  rw [deliveryStep] at lost
  split at lost
  case h_1 next committed => exact delivering.reclaim_delivered next committed key value read lost
  case h_2 => exact absurd read lost

theorem not_reads_of_memory (s : Store) (key value : Bytes)
    (memory : s.metas = [] ∧ s.disk.entries = [] ∧
      ∀ entry ∈ contents s [], entry.1 ≠ [] ∧ entry.2 ≠ some [])
    (absent : s.get key ≠ some value) : ¬ Reads s key value := by
  rcases memory with ⟨metas, disk, filled⟩
  have stored : Stored plainBloom s.metas s.disk [] := by
    constructor
    case files => rw [disk]; exact List.Perm.refl _
    case listed => rw [metas]; rfl
    case fits => exact nofun
  rintro (found | ⟨start, stop, seen⟩)
  · exact absent found
  · exact absent ((stored.mem_scanRange start stop (copiesMemory_of_filled filled start stop) key
      value).mp seen).2

def flushInputs (now : Nat) : List DeliveryInput := List.replicate 4 (DeliveryInput.flushStep now)

theorem reclaim_drops_batch : let A := ascii ['A']
    let inputs := [DeliveryInput.put A [1]] ++ flushInputs 1 ++
      [DeliveryInput.fetch, DeliveryInput.send true, DeliveryInput.commit true]
    let d := run (deliveryStep plainBloom (ascii ['f']) 1) Delivery.new inputs
    Reads d.store A [1] ∧
      ¬ Reads (deliveryStep plainBloom (ascii ['f']) 1 d .reclaim).store A [1] ∧
      (A, [1]) ∈ d.delivered := by
  intro A inputs d
  have read : Reads d.store A [1] := .inl (by decide +kernel)
  have lost : ¬ Reads (deliveryStep plainBloom (ascii ['f']) 1 d .reclaim).store A [1] :=
    not_reads_of_memory _ A [1] (by decide +kernel) (by decide +kernel)
  exact ⟨read, lost, reclaim_drops_delivered plainBloom (ascii ['f']) 1 inputs (by decide +kernel) A
    [1] read lost⟩

/-- Neither a value that arrives behind the cursor, nor a value that replaces a fetched one, nor a
version is handed to the sink before its file goes. -/
theorem reclaim_drops_undelivered :
    let A := ascii ['A']
    let B := ascii ['B']
    let v := newVersion ⟨A, [1], 0, [], 0⟩ 1
    let late := [DeliveryInput.put B [2], DeliveryInput.fetch, DeliveryInput.send true,
      DeliveryInput.put A [1]] ++ flushInputs 1 ++ [DeliveryInput.commit true]
    let replaced := [DeliveryInput.put A [2], DeliveryInput.fetch, DeliveryInput.send true,
      DeliveryInput.put A [1]] ++ flushInputs 1 ++ [DeliveryInput.commit true]
    let versioned := [DeliveryInput.version v, DeliveryInput.current v, DeliveryInput.put B [2]] ++
      flushInputs 1 ++ [DeliveryInput.fetch, DeliveryInput.send true, DeliveryInput.commit true]
    ∀ case ∈ [(late, A, [1]), (replaced, A, [1]),
        (versioned, versionStorageKey A 1, encodeVersionRecord v)],
      let d := run (deliveryStep plainBloom (ascii ['f']) 1) Delivery.new case.1
      Reads d.store case.2.1 case.2.2 ∧
        ¬ Reads (deliveryStep plainBloom (ascii ['f']) 1 d .reclaim).store case.2.1 case.2.2 ∧
        (case.2.1, case.2.2) ∉ d.delivered := by
  intro A B v late replaced versioned case member d
  have facts : d.store.get case.2.1 = some case.2.2 ∧ (case.2.1, case.2.2) ∉ d.delivered ∧
      let s := (deliveryStep plainBloom (ascii ['f']) 1 d .reclaim).store
      (s.metas = [] ∧ s.disk.entries = [] ∧
        ∀ entry ∈ contents s [], entry.1 ≠ [] ∧ entry.2 ≠ some []) ∧
          s.get case.2.1 ≠ some case.2.2 := by
    revert case
    decide +kernel
  rcases facts with ⟨found, undelivered, memory, absent⟩
  exact ⟨.inl found, not_reads_of_memory _ _ _ memory absent, undelivered⟩

end KairosFlux.Service
