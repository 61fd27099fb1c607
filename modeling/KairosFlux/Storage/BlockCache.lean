import KairosFlux.Lib.Runs
import KairosFlux.Storage.Bloom

/-! The cache of data blocks (`storage/block_cache.go`). -/

namespace KairosFlux.Storage

open Lib List Function

structure BlockCacheKey where
  path : Bytes
  offset : Int64
  deriving DecidableEq

/-- The entry of an element of the recency list, which nobody changes. -/
structure BlockCacheEntry where
  key : BlockCacheKey
  data : Bytes
  deriving DecidableEq

/-- The front of `lru` is the entry used last. A shard has a budget of at most 2^59 bytes, so the counts
stay inside their 64 bits. -/
structure BlockCacheShard where
  budget : Int
  used : Int
  lru : List BlockCacheEntry
  items : BlockCacheKey → Option BlockCacheEntry

namespace BlockCacheShard

variable (s : BlockCacheShard)

def new (budget : Int) : BlockCacheShard := ⟨budget, 0, [], fun _ => none⟩

def moveToFront (el : BlockCacheEntry) : BlockCacheShard :=
  { s with lru := if el ∈ s.lru then el :: s.lru.erase el else s.lru }

def getShard (key : BlockCacheKey) : BlockCacheShard × Option Bytes :=
  match s.items key with
  | none => (s, none)
  | some el => (s.moveToFront el, some el.data)

def add (el : BlockCacheEntry) : BlockCacheShard :=
  { s with
    used := s.used + el.data.length
    lru := el :: s.lru
    items := update s.items el.key (some el) }

def remove (el : BlockCacheEntry) : BlockCacheShard :=
  { s with
    used := s.used - el.data.length
    lru := s.lru.erase el
    items := update s.items el.key none }

/-- The loop of `putShard`, with a bound on its turns. -/
def evict : Nat → BlockCacheShard → BlockCacheShard
  | 0, s => s
  | turns + 1, s =>
    if s.budget < s.used then
      match s.lru.getLast? with
      | none => s
      | some victim => evict turns (s.remove victim)
    else s

def putShard (key : BlockCacheKey) (data : Bytes) : BlockCacheShard :=
  if data.length = 0 ∨ s.budget < data.length then s
  else
    match s.items key with
    | some el => s.moveToFront el
    | none => evict (s.lru.length + 1) (s.add ⟨key, data⟩)

/-- The loop goes on from the element that was next before the removal. -/
def dropFile (path : Bytes) : BlockCacheShard :=
  s.lru.foldl (fun s el => if el.key.path = path then s.remove el else s) s

end BlockCacheShard

/-- The bytes of the offset follow those of the path, the low one first. -/
def blockCacheHashOf (key : BlockCacheKey) : UInt64 :=
  fnv1a (key.path ++ leBytes 8 key.offset.toUInt64.toNat) 0

/-- The low four bits of the hash. -/
def BlockCacheKey.shard (key : BlockCacheKey) : Fin 16 := Fin.ofNat 16 (blockCacheHashOf key).toNat

abbrev BlockCache := Fin 16 → BlockCacheShard

/-- A cache that is switched off is `nil`. -/
def newBlockCache (budgetBytes : Int) : Option BlockCache :=
  if budgetBytes ≤ 0 then none
  else
    let per := budgetBytes / 16
    some fun _ => .new (if per < 1 then 1 else per)

inductive CacheCall
  | get (key : BlockCacheKey)
  | put (key : BlockCacheKey) (data : Bytes)
  | dropFile (path : Bytes)

def BlockCache.step (shards : BlockCache) : CacheCall → BlockCache
  | .get key => update shards key.shard ((shards key.shard).getShard key).1
  | .put key data => update shards key.shard ((shards key.shard).putShard key data)
  | .dropFile path => fun i => (shards i).dropFile path

def cacheStep (c : Option BlockCache) (call : CacheCall) : Option BlockCache := c.map (·.step call)

/-- What a `get` answers. -/
def cacheGet (c : Option BlockCache) (key : BlockCacheKey) : Option Bytes :=
  c.bind fun shards => ((shards key.shard).getShard key).2

namespace BlockCacheShard

variable {s : BlockCacheShard} {el : BlockCacheEntry} {key : BlockCacheKey}

/-- The index and the count are those of the recency list. -/
structure Filed (s : BlockCacheShard) : Prop where
  same : ∀ key el, s.items key = some el ↔ el ∈ s.lru ∧ el.key = key
  keys : (s.lru.map BlockCacheEntry.key).Nodup
  used : s.used = (s.lru.map fun el => (el.data.length : Int)).sum
  positive : 0 < s.budget

structure Accounts (s : BlockCacheShard) : Prop extends Filed s where
  within : s.used ≤ s.budget

theorem Accounts.new {budget : Int} (positive : 0 < budget) : Accounts (.new budget) :=
  ⟨⟨by simp [BlockCacheShard.new], nodup_nil, rfl, positive⟩, positive.le⟩

section

variable (filed : Filed s)
include filed

theorem Filed.getShard_eq_some {data : Bytes} :
    (s.getShard key).2 = some data ↔ ⟨key, data⟩ ∈ s.lru := by
  have same := filed.same key ⟨key, data⟩
  rw [getShard]
  cases found : s.items key with
  | none => simpa [found] using same
  | some el =>
    obtain ⟨own, held⟩ := el
    obtain rfl : own = key := ((filed.same _ _).mp found).2
    simpa [found] using same

theorem Filed.within_of_empty (empty : s.lru = []) : s.used ≤ s.budget := by
  simpa [filed.used, empty] using filed.positive.le

theorem Filed.add (absent : s.items el.key = none) : Filed (s.add el) := by
  have unlisted : ∀ other ∈ s.lru, other.key ≠ el.key := by
    intro other member same
    cases absent.symm.trans (same ▸ (filed.same _ _).mpr ⟨member, rfl⟩)
  constructor
  · intro key other
    have same := filed.same key other
    simp only [BlockCacheShard.add, update_apply, mem_cons]
    grind
  · simpa [BlockCacheShard.add, filed.keys] using unlisted
  · simp [BlockCacheShard.add, filed.used, add_comm]
  · exact filed.positive

theorem Filed.remove (member : el ∈ s.lru) : Filed (s.remove el) := by
  have perm : s.lru ~ el :: s.lru.erase el := perm_cons_erase member
  constructor
  · intro key other
    have same := filed.same key other
    have unique : other ∈ s.lru → other.key = el.key → other = el :=
      fun inside => inj_on_of_nodup_map filed.keys inside member
    have left := (filed.keys.of_map _).mem_erase_iff (a := other) (b := el)
    simp only [BlockCacheShard.remove, update_apply]
    grind
  · exact filed.keys.sublist (erase_sublist.map _)
  · have sum := (perm.map fun el => (el.data.length : Int)).sum_eq
    simp [BlockCacheShard.remove, filed.used, sum]
  · exact filed.positive

theorem Filed.moveToFront : Filed (s.moveToFront el) := by
  rw [BlockCacheShard.moveToFront]
  split_ifs with member
  · have perm : s.lru ~ el :: s.lru.erase el := perm_cons_erase member
    constructor
    · intro key other
      rw [filed.same key other, perm.mem_iff]
    · exact (perm.map _).nodup_iff.mp filed.keys
    · exact filed.used.trans (perm.map _).sum_eq
    · exact filed.positive
  · exact filed

end

theorem mem_moveToFront (el other : BlockCacheEntry) :
    other ∈ (s.moveToFront el).lru ↔ other ∈ s.lru := by
  rw [moveToFront]
  split_ifs with member
  · exact (perm_cons_erase member).mem_iff.symm
  · rfl

theorem Filed.evict (turns : Nat) (s : BlockCacheShard) (filed : Filed s)
    (enough : s.lru.length ≤ turns) : Accounts (evict turns s) ∧ (evict turns s).lru ⊆ s.lru := by
  induction turns generalizing s with
  | zero =>
    have empty : s.lru = [] := length_eq_zero_iff.mp (Nat.le_zero.mp enough)
    exact ⟨⟨filed, filed.within_of_empty empty⟩, Subset.refl _⟩
  | succ turns ih =>
    rw [BlockCacheShard.evict]
    split_ifs with exceeds
    · cases last : s.lru.getLast? with
      | none => exact absurd (filed.within_of_empty (getLast?_eq_none_iff.mp last)) (not_le.mpr exceeds)
      | some victim =>
        have member := mem_of_getLast? last
        have shorter : (s.remove victim).lru.length ≤ turns := by
          rw [BlockCacheShard.remove, length_erase_of_mem member]
          omega
        rcases ih _ (filed.remove member) shorter with ⟨accounts, kept⟩
        exact ⟨accounts, fun other member => mem_of_mem_erase (kept member)⟩
    · exact ⟨⟨filed, not_lt.mp exceeds⟩, Subset.refl _⟩

theorem Accounts.dropAll (path : Bytes) (visit : List BlockCacheEntry) (s : BlockCacheShard)
    (accounts : Accounts s) (inside : visit ⊆ s.lru) (unique : visit.Nodup) :
    let t := visit.foldl (fun s el => if el.key.path = path then s.remove el else s) s
    Accounts t ∧ ∀ el ∈ t.lru, el ∈ s.lru ∧ (el ∈ visit → el.key.path ≠ path) := by
  induction visit generalizing s with
  | nil => exact ⟨accounts, fun el member => ⟨member, by simp⟩⟩
  | cons el rest ih =>
    rcases cons_subset.mp inside with ⟨here, later⟩
    rcases nodup_cons.mp unique with ⟨once, others⟩
    rw [foldl_cons]
    split_ifs with gone
    · have left : rest ⊆ (s.remove el).lru := by
        intro other member
        have differs : other ≠ el := fun same => once (same ▸ member)
        exact (mem_erase_of_ne differs).mpr (later member)
      have less : (s.remove el).used ≤ s.used := by simp [remove]
      have removed : Accounts (s.remove el) :=
        ⟨accounts.toFiled.remove here, less.trans accounts.within⟩
      rcases ih _ removed left others with ⟨after, kept⟩
      refine ⟨after, fun other member => ?_⟩
      rcases kept other member with ⟨still, clear⟩
      have differs : other ≠ el := fun same => (accounts.keys.of_map _).not_mem_erase (same ▸ still)
      exact ⟨mem_of_mem_erase still,
        fun visited => clear ((mem_cons.mp visited).resolve_left differs)⟩
    · rcases ih s accounts later others with ⟨after, kept⟩
      refine ⟨after, fun other member => ⟨(kept other member).1, fun visited => ?_⟩⟩
      rcases mem_cons.mp visited with rfl | next
      · exact gone
      · exact (kept other member).2 next

/-- An entry behind the call was there before, or it was put where there was none. -/
structure Follows (call : CacheCall) (s t : BlockCacheShard) : Prop where
  accounts : Accounts t
  entries : ∀ el ∈ t.lru, el ∈ s.lru ∨ s.items el.key = none ∧ call = .put el.key el.data

section

variable (accounts : Accounts s) (call : CacheCall)
include accounts

theorem Follows.refl : Follows call s s := ⟨accounts, fun _ => .inl⟩

theorem Follows.moveToFront : Follows call s (s.moveToFront el) :=
  ⟨⟨accounts.toFiled.moveToFront, accounts.within⟩,
    fun other member => .inl ((mem_moveToFront el other).mp member)⟩

theorem Follows.getShard : Follows call s (s.getShard key).1 := by
  rw [BlockCacheShard.getShard]
  cases s.items key with
  | none => exact .refl accounts call
  | some el => exact .moveToFront accounts call

theorem Follows.putShard (data : Bytes) : Follows (.put key data) s (s.putShard key data) := by
  rw [BlockCacheShard.putShard]
  split_ifs
  · exact .refl accounts _
  · cases absent : s.items key with
    | some el => exact .moveToFront accounts _
    | none =>
      have added : Filed (s.add ⟨key, data⟩) := accounts.toFiled.add absent
      rcases added.evict (s.lru.length + 1) _ le_rfl with ⟨after, kept⟩
      refine ⟨after, fun el member => ?_⟩
      rcases mem_cons.mp (kept member) with rfl | old
      · exact .inr ⟨absent, rfl⟩
      · exact .inl old

theorem Accounts.dropFile (path : Bytes) : Accounts (s.dropFile path) ∧
    ∀ el ∈ (s.dropFile path).lru, el ∈ s.lru ∧ el.key.path ≠ path := by
  rcases accounts.dropAll path s.lru s (Subset.refl _) (accounts.keys.of_map _) with ⟨after, kept⟩
  exact ⟨after, fun el member => ⟨(kept el member).1, (kept el member).2 (kept el member).1⟩⟩

end

end BlockCacheShard

open BlockCacheShard

theorem BlockCache.step_follows (shards : BlockCache) (call : CacheCall)
    (accounts : ∀ i, (shards i).Accounts) : ∀ i, Follows call (shards i) (shards.step call i) := by
  have others i : Follows call (shards i) (shards i) := .refl (accounts i) call
  cases call with
  | get key =>
    exact (forall_update_iff _ fun i => Follows _ (shards i)).mpr
      ⟨.getShard (accounts _) _, fun i _ => others i⟩
  | put key data =>
    exact (forall_update_iff _ fun i => Follows _ (shards i)).mpr
      ⟨.putShard (accounts _) data, fun i _ => others i⟩
  | dropFile path =>
    intro i
    rcases (accounts i).dropFile path with ⟨after, kept⟩
    exact ⟨after, fun el member => .inl (kept el member).1⟩

theorem cacheStep_accounts (c : Option BlockCache) (call : CacheCall)
    (accounts : ∀ shards ∈ c, ∀ i, (shards i).Accounts) :
    (∀ shards ∈ cacheStep c call, ∀ i, (shards i).Accounts) ∧
      ∀ key data, cacheGet (cacheStep c call) key = some data →
        cacheGet c key = some data ∨ cacheGet c key = none ∧ call = .put key data := by
  cases c with
  | none => simp [cacheStep, cacheGet]
  | some shards =>
    have follows := shards.step_follows call (accounts shards rfl)
    refine ⟨?_, fun key data found => ?_⟩
    · rintro _ ⟨⟩ i
      exact (follows i).accounts
    · have held := (follows key.shard).accounts.toFiled.getShard_eq_some.mp found
      rcases (follows key.shard).entries _ held with old | ⟨absent, put⟩
      · exact .inl ((accounts shards rfl key.shard).toFiled.getShard_eq_some.mpr old)
      · exact .inr ⟨by simp [cacheGet, getShard, absent], put⟩

theorem newBlockCache_accounts (budgetBytes : Int) :
    ∀ shards ∈ newBlockCache budgetBytes, ∀ i, (shards i).Accounts := by
  rw [newBlockCache]
  split_ifs with off
  · simp
  · rintro _ ⟨⟩ i
    exact .new (by split_ifs <;> omega)

/-- In every shard the list, the index and the count agree and keep to the budget. A block that is found
is the first one put since the key was last absent, and none is left of a dropped file. -/
theorem block_cache_accounts (budgetBytes : Int) (calls : List CacheCall) :
    let after := run cacheStep (newBlockCache budgetBytes)
    (∀ shards ∈ after calls, ∀ i, (shards i).Accounts) ∧
      (∀ key data, cacheGet (after calls) key = some data → ∃ before rest,
        calls = before ++ .put key data :: rest ∧ cacheGet (after before) key = none ∧
          ∀ middle, middle <+: rest →
            cacheGet (after (before ++ .put key data :: middle)) key = some data) ∧
      ∀ path, ∀ shards ∈ after (calls ++ [.dropFile path]), ∀ i, ∀ el ∈ (shards i).lru,
        el.key.path ≠ path := by
  intro after
  have snoc calls call : after (calls ++ [call]) = cacheStep (after calls) call := run_append ..
  have accounts (calls : List CacheCall) : ∀ shards ∈ after calls, ∀ i, (shards i).Accounts :=
    run_invariant (fun c call held => (cacheStep_accounts c call held).1) _ calls
      (newBlockCache_accounts budgetBytes)
  refine ⟨accounts calls, fun key data found => ?_, fun path shards there i el member => ?_⟩
  · induction calls using List.reverseRecOn with
    | nil =>
      rw [show after [] = newBlockCache budgetBytes from rfl, newBlockCache] at found
      split_ifs at found
      all_goals cases found
    | append_singleton calls call ih =>
      rcases (cacheStep_accounts _ call (accounts calls)).2 key data (snoc calls call ▸ found) with
        old | ⟨absent, rfl⟩
      · rcases ih old with ⟨before, rest, rfl, absent, present⟩
        rw [append_assoc, cons_append] at found ⊢
        refine ⟨before, rest ++ [call], rfl, absent, fun middle part => ?_⟩
        rcases prefix_concat_iff.mp part with rfl | shorter
        · exact found
        · exact present middle shorter
      · refine ⟨calls, [], rfl, absent, fun middle part => ?_⟩
        rwa [prefix_nil.mp part]
  · rw [snoc, cacheStep] at there
    rcases Option.mem_map.mp there with ⟨old, held, rfl⟩
    exact (((accounts calls old held i).dropFile path).2 el member).2

end KairosFlux.Storage
