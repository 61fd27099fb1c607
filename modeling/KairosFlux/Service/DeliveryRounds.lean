import KairosFlux.Service.Delivery

/-! What a sink gets of a fixed content (`service/delivery`): what one `Fetch` says about the records
behind its cursor, rounds of `deliverOnce` that may fail at any step, and restarts from the committed
cursor. -/

namespace KairosFlux.Service

open Lib Temporal Storage List

/-- A visible record outside of the reserved keys. -/
def Business (s : Store) (key value : Bytes) : Prop :=
  isInternalKey key = false ∧ ¬ reservedPrefix <+: key ∧ s.get key = some value
deriving Decidable

def visibleRows (s : Store) (cursor : Bytes) : List (Bytes × Bytes) :=
  (s.scanRange cursor []).filter fun entry => !isInternalKey entry.1

def fetchWindow (limit : Nat) : Nat := min (limit + 1) maxScanResults

/-- What a `Fetch` promises: the end of the data when it returns nothing, and otherwise a cursor
behind its records with nothing left out before it. -/
structure Advances (s : Store) (cursor : Bytes) (limit : Nat) : Prop where
  ended : (fetch s cursor limit).1 = [] → ∀ key value, Business s key value → key < cursor
  behind : (fetch s cursor limit).1 ≠ [] →
    ∀ row ∈ (fetch s cursor limit).1, row.1 < (fetch s cursor limit).2
  covers : (fetch s cursor limit).1 ≠ [] → ∀ key value, Business s key value → cursor ≤ key →
    key < (fetch s cursor limit).2 → (key, value) ∈ (fetch s cursor limit).1

/-- The reserved keys right behind the cursor do not fill the window, unless only such keys follow. -/
def Unblocked (s : Store) (cursor : Bytes) (limit : Nat) : Prop :=
  (∀ row ∈ visibleRows s cursor, reservedPrefix <+: row.1) ∨
    ((visibleRows s cursor).takeWhile fun row => reservedPrefix <+: row.1).length < fetchWindow limit
deriving Decidable

/-- A batch from the start of the keys does not end with the empty key. -/
def PassesEmptyKey (s : Store) (cursor : Bytes) (limit : Nat) : Prop :=
  cursor = [] → s.get [] ≠ none → 2 ≤ limit ∧ 2 ≤ (visibleRows s cursor).length
deriving Decidable

theorem scan_eq_take (s : Store) (cursor : Bytes) (limit : Nat) :
    scan s cursor [] (limit + 1) = (visibleRows s cursor).take (fetchWindow limit) := by
  have window : (if limit + 1 = 0 ∨ maxScanResults < limit + 1 then maxScanResults else limit + 1) =
      fetchWindow limit := by
    rw [fetchWindow]
    by_cases long : maxScanResults < limit + 1
    · rw [if_pos (.inr long)]
      omega
    · rw [if_neg (by omega)]
      omega
  rw [scan, window, visibleRows]

theorem forall_take_iff {α : Type} (p : α → Prop) [DecidablePred p] (rows : List α) (n : Nat) :
    (∀ row ∈ rows.take n, p row) ↔
      (∀ row ∈ rows, p row) ∨ n ≤ (rows.takeWhile fun row => p row).length := by
  induction rows generalizing n with
  | nil => simp
  | cons row rows ih =>
    cases n with
    | zero => simp
    | succ n =>
      by_cases holds : p row
      · simp [holds, ih]
      · simp [holds]

section Fetching

variable {choice : BloomChoice} {tables : List StoredTable} {s : Store} {cursor : Bytes} {limit : Nat}

section

variable (stored : Stored choice s.metas s.disk tables)
include stored

theorem visibleRows_sorted (cursor : Bytes) : (visibleRows s cursor).Pairwise KeyLt :=
  (visited_sorted _ (stored.scanFeeds_sound cursor [])).filter _

theorem mem_visibleRows
    (copies : s.CopiesMemory cursor []) (key value : Bytes) :
    (key, value) ∈ visibleRows s cursor ↔
      cursor ≤ key ∧ isInternalKey key = false ∧ s.get key = some value := by
  rw [visibleRows, mem_filter, stored.mem_scanRange cursor [] copies]
  simp [InRange]
  tauto

theorem business_of_row
    (copies : s.CopiesMemory cursor []) (row : Bytes × Bytes) (seen : row ∈ visibleRows s cursor)
    (unreserved : ¬ reservedPrefix <+: row.1) : Business s row.1 row.2 := by
  rcases (mem_visibleRows stored copies row.1 row.2).mp seen with ⟨_, visible, found⟩
  exact ⟨visible, unreserved, found⟩

theorem Business.mem_visibleRows {key value : Bytes} (business : Business s key value) (copies : s.CopiesMemory cursor [])
    (above : cursor ≤ key) : (key, value) ∈ visibleRows s cursor :=
  (Service.mem_visibleRows stored copies key value).mpr ⟨above, business.1, business.2.2⟩

end

theorem fetch_eq_nil_iff (positive : 1 ≤ limit) : (fetch s cursor limit).1 = [] ↔
      ∀ row ∈ (visibleRows s cursor).take (fetchWindow limit), reservedPrefix <+: row.1 := by
  rcases fetch_spec s cursor limit with ⟨taken, front, filtered, ends, _⟩
  rw [← scan_eq_take]
  constructor
  · intro none row seen
    have whole : taken = scan s cursor [] (limit + 1) := by
      rcases ends with whole | full
      · exact whole
      · rw [none, length_nil] at full
        omega
    rw [none, whole] at filtered
    simpa using filter_eq_nil_iff.mp filtered.symm row seen
  · intro all
    rw [filtered, filter_eq_nil_iff]
    intro row seen
    simpa using all row (front.subset seen)

theorem ended_iff (stored : Stored choice s.metas s.disk tables) (copies : s.CopiesMemory cursor [])
    (positive : 1 ≤ limit) :
    ((fetch s cursor limit).1 = [] → ∀ key value, Business s key value → key < cursor) ↔
      Unblocked s cursor limit := by
  -- No record is left exactly when only reserved rows follow.
  have rest : (∀ key value, Business s key value → key < cursor) ↔
      ∀ row ∈ visibleRows s cursor, reservedPrefix <+: row.1 := by
    constructor
    · intro none row seen
      by_contra unreserved
      have above := ((mem_visibleRows stored copies row.1 row.2).mp seen).1
      exact absurd above (not_le.mpr (none row.1 row.2 (business_of_row stored copies row seen unreserved)))
    · intro all key value business
      by_contra above
      exact business.2.1 (all _ (business.mem_visibleRows stored copies (not_lt.mp above)))
  rw [rest, fetch_eq_nil_iff positive,
    forall_take_iff (fun row : Bytes × Bytes => reservedPrefix <+: row.1), Unblocked]
  constructor
  · intro closes
    by_cases full : fetchWindow limit ≤ ((visibleRows s cursor).takeWhile
        fun row => reservedPrefix <+: row.1).length
    · exact .inl (closes (.inr full))
    · exact .inr (not_le.mp full)
  · rintro (all | free) (reserved | full)
    · exact all
    · exact all
    · exact reserved
    · omega

theorem fetch_rows (stored : Stored choice s.metas s.disk tables) (copies : s.CopiesMemory cursor [])
    (row : Bytes × Bytes) (fetched : row ∈ (fetch s cursor limit).1) :
    cursor ≤ row.1 ∧ Business s row.1 row.2 := by
  rcases fetch_spec s cursor limit with ⟨taken, front, filtered, _, _⟩
  rw [filtered, mem_filter] at fetched
  have seen : row ∈ visibleRows s cursor :=
    (scan_prefix_visible s cursor [] (limit + 1)).subset (front.subset fetched.1)
  exact ⟨((mem_visibleRows stored copies row.1 row.2).mp seen).1,
    business_of_row stored copies row seen (by simpa using fetched.2)⟩

theorem fetch_sorted (stored : Stored choice s.metas s.disk tables) (cursor : Bytes) (limit : Nat) :
    (fetch s cursor limit).1.Pairwise KeyLt := by
  rcases fetch_spec s cursor limit with ⟨taken, front, filtered, _, _⟩
  rw [filtered]
  have inside : taken.Sublist (visibleRows s cursor) :=
    (front.trans (scan_prefix_visible s cursor [] (limit + 1))).sublist
  exact ((visibleRows_sorted stored cursor).sublist inside).filter _

theorem fetch_emptyKey (positive : 1 ≤ limit) (value : Bytes) (rest : List (Bytes × Bytes))
    (rows : visibleRows s cursor = ([], value) :: rest) (single : limit = 1 ∨ rest = []) :
    fetch s cursor limit = ([([], value)], cursor) := by
  have window : fetchWindow limit = fetchWindow limit - 1 + 1 := by
    rw [fetchWindow, maxScanResults]
    omega
  have unreserved : ¬ reservedPrefix <+: ([] : Bytes) := by decide
  rw [fetch, scan_eq_take, rows, window, take_succ_cons, fetchLoop, if_neg unreserved]
  rcases single with rfl | rfl
  · rfl
  · rw [take_nil]
    split_ifs <;> rfl

section

variable (stored : Stored choice s.metas s.disk tables)
include stored

theorem visibleRows_emptyKey
    (copies : s.CopiesMemory [] []) (value : Bytes) (found : s.get [] = some value) :
    ∃ rest, visibleRows s [] = ([], value) :: rest := by
  have seen : ([], value) ∈ visibleRows s [] :=
    (mem_visibleRows stored copies [] value).mpr ⟨le_rfl, by decide, found⟩
  have sorted := visibleRows_sorted stored []
  cases rows : visibleRows s [] with
  | nil =>
    rw [rows] at seen
    cases seen
  | cons row rest =>
    rw [rows] at seen sorted
    rcases mem_cons.mp seen with rfl | later
    · exact ⟨rest, rfl⟩
    · have less : row.1 < [] := (pairwise_cons.mp sorted).1 _ later
      exact absurd less (not_lt_nil _)

section

variable (copies : s.CopiesMemory cursor [])
include copies

theorem passesEmptyKey_of_behind (positive : 1 ≤ limit) (behind : (fetch s cursor limit).1 ≠ [] →
      ∀ row ∈ (fetch s cursor limit).1, row.1 < (fetch s cursor limit).2) :
    PassesEmptyKey s cursor limit := by
  rintro rfl live
  rcases Option.ne_none_iff_exists'.mp live with ⟨value, found⟩
  rcases visibleRows_emptyKey stored copies value found with ⟨rest, rows⟩
  by_contra short
  have single : limit = 1 ∨ rest = [] := by
    rw [rows, length_cons] at short
    cases rest with
    | nil => exact .inr rfl
    | cons row rest =>
      rw [length_cons] at short
      left
      omega
  rw [fetch_emptyKey positive value rest rows single] at behind
  exact absurd (behind (cons_ne_nil _ _) _ (.head _)) (not_lt_nil _)

/-- Rows that end with the empty key are that row alone, and the cursor stands at the start. -/
theorem alone_of_emptyKey (taken : List (Bytes × Bytes))
    (listed : taken <+: visibleRows s cursor) (final : Bytes × Bytes) (last : final ∈ taken.getLast?)
    (empty : final.1 = []) : taken = [final] ∧ cursor = [] ∧ s.get [] ≠ none := by
  rcases taken.eq_nil_or_concat' with rfl | ⟨before, tail, rfl⟩
  · cases last
  rw [List.getLast?_concat] at last
  obtain rfl := Option.some.inj last
  rcases (mem_visibleRows stored copies tail.1 tail.2).mp
    (listed.subset (mem_append_right _ (.head _))) with ⟨above, _, found⟩
  rw [empty] at above found
  refine ⟨?_, ?_, ?_⟩
  · cases before with
    | nil => rfl
    | cons other before =>
      have sorted := (visibleRows_sorted stored cursor).sublist listed.sublist
      have less : other.1 < tail.1 := (pairwise_cons.mp sorted).1 tail (by simp)
      rw [empty] at less
      exact absurd less (not_lt_nil _)
  · cases cursor with
    | nil => rfl
    | cons byte rest => exact absurd (nil_lt_cons byte rest) (not_lt.mpr above)
  · rw [found]
    nofun

theorem behind_of_passesEmptyKey (passes : PassesEmptyKey s cursor limit)
    (row : Bytes × Bytes) (fetched : row ∈ (fetch s cursor limit).1) :
    row.1 < (fetch s cursor limit).2 := by
  rcases fetch_spec s cursor limit with ⟨taken, front, filtered, ends, cases⟩
  have listed : taken <+: visibleRows s cursor := front.trans (scan_prefix_visible _ _ _ _)
  have inside : row ∈ taken := by
    rw [filtered] at fetched
    exact (mem_filter.mp fetched).1
  rcases cases with ⟨_, empty⟩ | ⟨final, last, moves⟩
  · -- Only the empty key would leave the cursor where it is, and then more rows were asked for.
    exfalso
    have final := List.getLast?_eq_some_getLast (ne_nil_of_mem inside)
    rcases alone_of_emptyKey stored copies taken listed _ final (empty _ final) with
      ⟨alone, start, live⟩
    rcases passes start live with ⟨several, more⟩
    have length : taken.length = 1 := by rw [alone, length_singleton]
    rcases ends with whole | full
    · rw [whole, scan_eq_take, length_take, fetchWindow, maxScanResults] at length
      omega
    · rw [filtered] at full
      have short : (taken.filter fun entry => ¬ reservedPrefix <+: entry.1).length ≤ taken.length :=
        length_filter_le _ _
      omega
  · rw [moves, lt_append_zero_iff]
    exact le_getLast taken ((visibleRows_sorted stored cursor).sublist listed.sublist) final last row
      inside

theorem behind_iff (positive : 1 ≤ limit) : ((fetch s cursor limit).1 ≠ [] →
      ∀ row ∈ (fetch s cursor limit).1, row.1 < (fetch s cursor limit).2) ↔
      PassesEmptyKey s cursor limit :=
  ⟨passesEmptyKey_of_behind stored copies positive,
    fun passes _ => behind_of_passesEmptyKey stored copies passes⟩

theorem covers (key value : Bytes) (business : Business s key value) (above : cursor ≤ key)
    (passed : key < (fetch s cursor limit).2) : (key, value) ∈ (fetch s cursor limit).1 := by
  have seen : (key, value) ∈ s.scanRange cursor [] :=
    (stored.mem_scanRange cursor [] copies key value).mpr ⟨⟨above, .inl rfl⟩, business.2.2⟩
  have sorted := visited_sorted _ (stored.scanFeeds_sound cursor [])
  exact (mem_fetch s cursor limit (key, value) sorted seen business.1 business.2.1
    passed).resolve_right (not_lt.mpr above)

theorem advances_iff (positive : 1 ≤ limit) :
    Advances s cursor limit ↔ Unblocked s cursor limit ∧ PassesEmptyKey s cursor limit := by
  rw [← ended_iff stored copies positive, ← behind_iff stored copies positive]
  constructor
  · intro advances
    exact ⟨advances.ended, advances.behind⟩
  · rintro ⟨ended, behind⟩
    exact ⟨ended, behind, fun _ => covers stored copies⟩

end

end

end Fetching

/-- A deliverer over its store. `sent` has the batches of the calls of `Send` that returned nil. -/
structure Courier where
  store : Store
  cursor : Bytes
  sent : List (Bytes × Bytes)

/-- How a round goes that has a batch. A `Commit` that fails may have written the cursor all the
same, as when its answer is late. -/
inductive Outcome
  | sendFailed
  | commitFailed (stored : Bool)
  | done
  deriving DecidableEq

/-- `rearrange` is any work of the storage engine below: a flush, a compaction, a recovery. -/
inductive CourierInput
  | round (outcome : Outcome)
  | restart
  | rearrange (after : Store)

/-- `Commit` of the offset store. The engine keeps a nil cursor as a tombstone. -/
def commitOffset (s : Store) (sink next : Bytes) : Store :=
  s.put (offsetKey sink) (if next = [] then none else some next)

/-- `getViaCurrentPointer` of the key-value server. -/
def viaCurrentPointer (s : Store) (key : Bytes) : Option Bytes := do
  let curRaw ← s.get (currentStorageKey key)
  let cur ← decodeCurrentValue curRaw
  let verRaw ← s.get (versionStorageKey key cur.seq)
  let version ← decodeVersionRecord verRaw
  pure version.payload

/-- `Load` of the offset store, through the lookup of the key-value server. -/
def loadOffset (s : Store) (sink : Bytes) : Bytes :=
  ((s.get (offsetKey sink)).or (viaCurrentPointer s (offsetKey sink))).getD []

section Steps

variable (sink : Bytes) (batchSize : Nat)

/-- The cursor in memory moves last, so a process that stops in between has a failed commit. -/
def deliverOnce (d : Courier) (outcome : Outcome) : Courier :=
  let (batch, next) := fetch d.store d.cursor (max batchSize 1)
  if batch = [] then d
  else
    match outcome with
    | .sendFailed => d
    | .commitFailed stored =>
      ⟨if stored then commitOffset d.store sink next else d.store, d.cursor, d.sent ++ batch⟩
    | .done => ⟨commitOffset d.store sink next, next, d.sent ++ batch⟩

def courierStep (d : Courier) : CourierInput → Courier
  | .round outcome => deliverOnce sink batchSize d outcome
  | .restart => { d with cursor := loadOffset d.store sink }
  | .rearrange after => { d with store := after }

end Steps

def Complete (s : Store) : Prop := ∃ choice tables, Stored choice s.metas s.disk tables

/-- The work of the storage engine keeps the content. -/
def SameContent (s after : Store) : Prop := Complete after ∧ ∀ key, after.get key = s.get key

/-- A round finds no empty key or value in memory, and its batch does not end with the empty key. -/
def Careful (batchSize : Nat) (d : Courier) : CourierInput → Prop
  | .round _ =>
    d.store.CopiesMemory d.cursor [] ∧ PassesEmptyKey d.store d.cursor (max batchSize 1)
  | .restart => True
  | .rearrange after => SameContent d.store after

def Faultless : CourierInput → Prop
  | .round outcome => outcome = .done
  | .restart => False
  | .rearrange _ => True

theorem Business.congr {s after : Store} {key value : Bytes} (business : Business s key value)
    (same : after.get key = s.get key) : Business after key value :=
  ⟨business.1, business.2.1, same.trans business.2.2⟩

theorem business_commitOffset {s : Store} {sink next key value : Bytes}
    (business : Business (commitOffset s sink next) key value) : Business s key value := by
  apply business.congr
  have other : key ≠ offsetKey sink := by
    rintro rfl
    exact business.2.1 (prefix_append _ _)
  rw [commitOffset, Store.get_put, if_neg other]

theorem currentStorageKey_ne (key : Bytes) : currentStorageKey key ≠ key := by
  intro same
  have length := congrArg List.length same
  rw [currentStorageKey, length_append] at length
  exact absurd length (by rw [currentSuffix]; simp [ascii])

theorem loadOffset_commitOffset {s : Store} {sink : Bytes} (next : Bytes)
    (unversioned : s.get (currentStorageKey (offsetKey sink)) = none) :
    loadOffset (commitOffset s sink next) sink = next := by
  have pointer : (commitOffset s sink next).get (currentStorageKey (offsetKey sink)) = none := by
    rw [commitOffset, Store.get_put, if_neg (currentStorageKey_ne _), unversioned]
  rw [loadOffset, viaCurrentPointer, pointer, commitOffset, Store.get_put, if_pos rfl]
  split_ifs with start
  · exact start.symm
  · rfl

/-- What lies before the two cursors was in a `Send` that returned nil. -/
structure Delivered (sink : Bytes) (d : Courier) : Prop where
  complete : Complete d.store
  unversioned : d.store.get (currentStorageKey (offsetKey sink)) = none
  passed : ∀ key value, Business d.store key value → key < d.cursor → (key, value) ∈ d.sent
  committed : ∀ key value, Business d.store key value → key < loadOffset d.store sink →
    (key, value) ∈ d.sent

/-- The sent records are in ascending order and lie before the cursor. -/
structure Ascending (d : Courier) : Prop where
  complete : Complete d.store
  sorted : d.sent.Pairwise KeyLt
  passed : ∀ row ∈ d.sent, row.1 < d.cursor

section Runs

variable {sink : Bytes} {batchSize : Nat} {d : Courier}

theorem Delivered.commit (delivered : Delivered sink d) (next : Bytes) (sent : List (Bytes × Bytes))
    (covered : ∀ key value, Business d.store key value → key < next → (key, value) ∈ sent)
    (cursor : Bytes)
    (passed : ∀ key value, Business d.store key value → key < cursor → (key, value) ∈ sent) :
    Delivered sink ⟨commitOffset d.store sink next, cursor, sent⟩ where
  complete := delivered.complete
  unversioned := by
    rw [commitOffset, Store.get_put, if_neg (currentStorageKey_ne _), delivered.unversioned]
  passed key value business := passed key value (business_commitOffset business)
  committed key value business less := by
    rw [loadOffset_commitOffset next delivered.unversioned] at less
    exact covered key value (business_commitOffset business) less

theorem Delivered.step (delivered : Delivered sink d) (input : CourierInput)
    (careful : Careful batchSize d input) : Delivered sink (courierStep sink batchSize d input) := by
  cases input with
  | round outcome =>
    rcases delivered.complete with ⟨choice, tables, stored⟩
    rcases careful with ⟨copies, _⟩
    generalize limited : max batchSize 1 = limit at *
    -- Everything before the next cursor is in the batch or was sent before.
    have covered : ∀ key value, Business d.store key value →
        key < (fetch d.store d.cursor limit).2 →
          (key, value) ∈ d.sent ++ (fetch d.store d.cursor limit).1 := by
      intro key value business less
      rcases lt_or_ge key d.cursor with before | above
      · exact mem_append_left _ (delivered.passed key value business before)
      · exact mem_append_right _ (covers stored copies key value business above less)
    have passed : ∀ key value, Business d.store key value → key < d.cursor →
        (key, value) ∈ d.sent ++ (fetch d.store d.cursor limit).1 :=
      fun key value business before =>
        mem_append_left _ (delivered.passed key value business before)
    simp only [courierStep, deliverOnce, limited]
    split_ifs with none
    · exact delivered
    cases outcome with
    | sendFailed => exact delivered
    | commitFailed stored =>
      cases stored with
      | false =>
        exact ⟨delivered.complete, delivered.unversioned, passed, fun key value business less =>
          mem_append_left _ (delivered.committed key value business less)⟩
      | true => exact delivered.commit _ _ covered _ passed
    | done => exact delivered.commit _ _ covered _ covered
  | restart =>
    exact ⟨delivered.complete, delivered.unversioned, delivered.committed, delivered.committed⟩
  | rearrange after =>
    rcases careful with ⟨complete, same⟩
    have load : loadOffset after sink = loadOffset d.store sink := by
      simp only [loadOffset, viaCurrentPointer, same]
    have before : ∀ key value, Business after key value → Business d.store key value :=
      fun key value business => business.congr (same key).symm
    refine ⟨complete, (same _).trans delivered.unversioned, ?_, ?_⟩
    · exact fun key value business => delivered.passed key value (before key value business)
    · intro key value business less
      change key < loadOffset after sink at less
      rw [load] at less
      exact delivered.committed key value (before key value business) less

theorem Ascending.step (ascending : Ascending d) (input : CourierInput)
    (careful : Careful batchSize d input) (faultless : Faultless input) :
    Ascending (courierStep sink batchSize d input) := by
  cases input with
  | round outcome =>
    obtain rfl : outcome = .done := faultless
    rcases ascending.complete with ⟨choice, tables, stored⟩
    rcases careful with ⟨copies, passes⟩
    have positive : 1 ≤ max batchSize 1 := le_max_right _ _
    have behind := (behind_iff stored copies positive).mpr passes
    simp only [courierStep, deliverOnce]
    split_ifs with none
    · exact ascending
    refine ⟨ascending.complete, ?_, ?_⟩
    · apply pairwise_append.mpr
      refine ⟨ascending.sorted, fetch_sorted stored _ _, fun row old other new => ?_⟩
      exact lt_of_lt_of_le (ascending.passed row old) (fetch_rows stored copies other new).1
    · intro row member
      rcases mem_append.mp member with old | new
      · -- The batch is not empty, and the old cursor is not above its first record.
        rcases exists_mem_of_ne_nil _ none with ⟨first, fetched⟩
        calc
          row.1 < d.cursor := ascending.passed row old
          _ ≤ first.1 := (fetch_rows stored copies first fetched).1
          _ < _ := behind none first fetched
      · exact behind none row new
  | restart => exact faultless.elim
  | rearrange after => exact ⟨careful.1, ascending.sorted, ascending.passed⟩

theorem Ascending.sendsNew (ascending : Ascending d) (copies : d.store.CopiesMemory d.cursor [])
    (unblocked : Unblocked d.store d.cursor (max batchSize 1)) (key value : Bytes)
    (business : Business d.store key value) (left : d.cursor ≤ key) :
    ∃ row ∈ (courierStep sink batchSize d (.round .done)).sent, ∀ old ∈ d.sent, old.1 ≠ row.1 := by
  rcases ascending.complete with ⟨choice, tables, stored⟩
  have positive : 1 ≤ max batchSize 1 := le_max_right _ _
  have some : (fetch d.store d.cursor (max batchSize 1)).1 ≠ [] := by
    intro none
    have before := (ended_iff stored copies positive).mpr unblocked none key value business
    exact absurd left (not_le.mpr before)
  rcases exists_mem_of_ne_nil _ some with ⟨row, fetched⟩
  refine ⟨row, ?_, fun old member same => ?_⟩
  · simp only [courierStep, deliverOnce, if_neg some]
    exact mem_append_right _ fetched
  · have less : old.1 < row.1 :=
      lt_of_lt_of_le (ascending.passed old member) (fetch_rows stored copies row fetched).1
    exact absurd same less.ne

end Runs

/-- From a store without a committed cursor, whatever fails and wherever the process stops: if each
round finds no empty key or value in memory and does not end its batch with the empty key, then every
record before the committed cursor was in a `Send` that returned nil, and rounds without a fault send
the records in ascending order. -/
theorem committed_records_sent (sink : Bytes) (batchSize : Nat) (s : Store) (complete : Complete s)
    (fresh : s.get (offsetKey sink) = none)
    (unversioned : s.get (currentStorageKey (offsetKey sink)) = none) (inputs : List CourierInput)
    (careful : Guarded (courierStep sink batchSize) (Careful batchSize) ⟨s, [], []⟩ inputs) :
    let d := run (courierStep sink batchSize) ⟨s, [], []⟩ inputs
    (∀ key value, Business d.store key value → key < loadOffset d.store sink →
      (key, value) ∈ d.sent) ∧
      ((∀ input ∈ inputs, Faultless input) → d.sent.Pairwise KeyLt) := by
  intro d
  constructor
  · have start : loadOffset s sink = [] := by
      rw [loadOffset, viaCurrentPointer, fresh, unversioned]
      rfl
    have initial : Delivered sink ⟨s, [], []⟩ := by
      refine ⟨complete, unversioned, fun _ _ _ less => absurd less (not_lt_nil _), ?_⟩
      intro key value _ less
      rw [start] at less
      exact absurd less (not_lt_nil _)
    have preserved : ∀ d input, Delivered sink d → Careful batchSize d input →
        Delivered sink (courierStep sink batchSize d input) :=
      fun d input delivered careful => delivered.step input careful
    exact (Guarded.invariant preserved _ inputs initial careful).committed
  · intro faultless
    have initial : Ascending ⟨s, [], []⟩ :=
      ⟨complete, List.Pairwise.nil, nofun⟩
    have preserved : ∀ d input, Ascending d → Careful batchSize d input ∧ Faultless input →
        Ascending (courierStep sink batchSize d input) :=
      fun d input ascending both => ascending.step input both.1 both.2
    exact (Guarded.invariant preserved _ inputs initial
      (careful.and _ inputs (Guarded.of_forall _ inputs faultless))).sorted

def storeOf (inputs : List Storage.Input) : Store :=
  (run (workerStep plainBloom 2) Machine.new inputs).store

theorem complete_storeOf (inputs : List Storage.Input)
    (tidy : Guarded (workerStep plainBloom 2) (Storage.Kept.Tidy 2) Machine.new inputs) :
    Complete (storeOf inputs) := by
  rcases Storage.Kept.run inputs tidy with ⟨tables, kept⟩
  exact ⟨plainBloom, tables, kept.stored⟩

/-- A cursor that is stored by a failed commit survives the restart. -/
theorem committed_records_sent_again : let sink := ascii ['f']
    let s := storeOf [.put (ascii ['a']) [1], .put (ascii ['b']) [2]]
    let inputs := [CourierInput.round (.commitFailed false), .round .sendFailed,
      .round (.commitFailed true), .restart, .round .done]
    let d := run (courierStep sink 1) ⟨s, [], []⟩ inputs
    d.sent = [(ascii ['a'], [1]), (ascii ['a'], [1]), (ascii ['b'], [2])] ∧
      ∀ key value, Business d.store key value → key < loadOffset d.store sink →
        (key, value) ∈ d.sent := by
  intro sink s inputs d
  have round : ∀ (d : Courier) (outcome : Outcome), d.store.CopiesMemory d.cursor [] ∧
      PassesEmptyKey d.store d.cursor (max 1 1) → Careful 1 d (.round outcome) :=
    fun _ _ both => both
  refine ⟨by decide +kernel, (committed_records_sent sink 1 s ?_ ?_ ?_ inputs ?_).1⟩
  · exact complete_storeOf _ (by decide +kernel)
  · decide +kernel
  · decide +kernel
  · exact ⟨round _ _ (by decide +kernel), round _ _ (by decide +kernel), round _ _ (by decide +kernel),
      trivial, round _ _ (by decide +kernel), trivial⟩

/-- A live key with an empty value in memory is passed over, and a flushed empty key is sent in every
round. -/
theorem committed_records_not_sent : let sink := ascii ['f']
    let valueless := storeOf [.put (ascii ['k']) [], .put (ascii ['m']) [1]]
    let nameless := storeOf ([.put [] [1]] ++ flushSteps 1)
    let d := courierStep sink 1 ⟨valueless, [], []⟩ (.round .done)
    (Business d.store (ascii ['k']) [] ∧ ascii ['k'] < loadOffset d.store sink ∧
      (ascii ['k'], []) ∉ d.sent) ∧
      ¬ (run (courierStep sink 1) ⟨nameless, [], []⟩
        [.round .done, .round .done]).sent.Pairwise KeyLt := by
  intro sink valueless nameless d
  refine ⟨by decide +kernel, fun sorted => ?_⟩
  have twice : (run (courierStep sink 1) ⟨nameless, [], []⟩ [.round .done, .round .done]).sent =
      [([], [1]), ([], [1])] := by decide +kernel
  rw [twice] at sorted
  exact absurd ((pairwise_cons.mp sorted).1 _ (.head _)) (not_lt_nil _)

/-- The rounds find fewer reserved keys before the next record than they have rows. -/
def Clear (batchSize : Nat) (d : Courier) : CourierInput → Prop
  | .round _ => Unblocked d.store d.cursor (max batchSize 1)
  | _ => True

/-- A round with a record left sends one whose key was not sent before. -/
def SendsNew (sink : Bytes) (batchSize : Nat) (d : Courier) : CourierInput → Prop
  | .round outcome => (∃ key value, Business d.store key value ∧ d.cursor ≤ key) →
      ∃ row ∈ (courierStep sink batchSize d (.round outcome)).sent, ∀ old ∈ d.sent, old.1 ≠ row.1
  | _ => True

/-- Where memory is copied as it is, a `Fetch` keeps its promises exactly if the reserved keys behind
the cursor do not fill its window and its batch does not end with the empty key; and as long as this is
so, every round of a run without faults sends something new until nothing is left. -/
theorem fetch_advances (s : Store) (cursor : Bytes) (limit : Nat) (complete : Complete s) :
    (s.CopiesMemory cursor [] → 1 ≤ limit →
      (Advances s cursor limit ↔ Unblocked s cursor limit ∧ PassesEmptyKey s cursor limit)) ∧
    ∀ (sink : Bytes) (inputs : List CourierInput), Guarded (courierStep sink limit)
        (fun d input => Careful limit d input ∧ Clear limit d input) ⟨s, cursor, []⟩ inputs →
      (∀ input ∈ inputs, Faultless input) →
        Guarded (courierStep sink limit) (SendsNew sink limit) ⟨s, cursor, []⟩ inputs := by
  constructor
  · intro copies positive
    rcases complete with ⟨choice, tables, stored⟩
    exact advances_iff stored copies positive
  · intro sink inputs guarded faultless
    have initial : Ascending ⟨s, cursor, []⟩ :=
      ⟨complete, List.Pairwise.nil, nofun⟩
    have preserved : ∀ d input, Ascending d →
        (Careful limit d input ∧ Clear limit d input) ∧ Faultless input →
          Ascending (courierStep sink limit d input) ∧ SendsNew sink limit d input := by
      intro d input ascending meets
      rcases meets with ⟨⟨careful, unblocked⟩, faultless⟩
      refine ⟨ascending.step input careful faultless, ?_⟩
      cases input with
      | round outcome =>
        have done : outcome = .done := faultless
        subst done
        intro rest
        rcases rest with ⟨key, value, business, left⟩
        exact ascending.sendsNew careful.1 unblocked key value business left
      | restart | rearrange => trivial
    exact Guarded.observed preserved _ inputs initial
      (guarded.and _ inputs (Guarded.of_forall _ inputs faultless))

/-- One reserved key before the record, and batches of one. -/
theorem fetch_advances_past_offset :
    let s := storeOf [.put (offsetKey (ascii ['f'])) [1], .put (ascii ['z']) [2]]
    Advances s [] 1 ∧ SendsNew (ascii ['f']) 1 ⟨s, [], []⟩ (.round .done) := by
  intro s
  have complete : Complete s := complete_storeOf _ (by decide +kernel)
  have copies : s.CopiesMemory [] [] := by decide +kernel
  have unblocked : Unblocked s [] 1 := by decide +kernel
  have passes : PassesEmptyKey s [] 1 := by decide +kernel
  constructor
  · exact ((fetch_advances s [] 1 complete).1 copies le_rfl).mpr ⟨unblocked, passes⟩
  · exact ((fetch_advances s [] 1 complete).2 (ascii ['f']) [.round .done]
      ⟨⟨⟨copies, passes⟩, unblocked⟩, trivial⟩ (by simp [Faultless])).1

/-- Two reserved keys fill the window of a batch of one, an empty key that is the whole batch leaves
the cursor in its place, and an empty value in memory is not seen. -/
theorem fetch_stuck :
    let blocked := storeOf [.put (offsetKey (ascii ['f'])) [1], .put (offsetKey (ascii ['g'])) [1],
      .put (ascii ['z']) [2]]
    let nameless := storeOf ([.put [] [1]] ++ flushSteps 1)
    let valueless := storeOf [.put (ascii ['k']) []]
    ∀ s ∈ [blocked, nameless, valueless], ¬ Advances s [] 1 := by
  intro blocked nameless valueless s member advances
  simp only [mem_cons, not_mem_nil, or_false] at member
  rcases member with rfl | rfl | rfl
  · exact absurd (advances.ended (by decide +kernel) (ascii ['z']) [2] (by decide +kernel))
      (not_lt_nil _)
  · exact absurd (advances.behind (by decide +kernel) ([], [1]) (by decide +kernel)) (by decide +kernel)
  · exact absurd (advances.ended (by decide +kernel) (ascii ['k']) [] (by decide +kernel))
      (not_lt_nil _)

end KairosFlux.Service
