import KairosFlux.Jobctl.Clock
import KairosFlux.Lib.Decimal
import KairosFlux.Lib.Sha256
import KairosFlux.Lib.Utf8

/-! The declared state of a job and its validation (`internal/jobctl/spec.go`). -/

namespace KairosFlux.Jobctl

open Lib

/-- The environment is listed by its keys, `none` for nil. -/
structure JobSpec where
  name : Bytes
  command : List Bytes
  dir : Bytes
  env : Option (List (Bytes × Bytes))
  dependsOn : List Bytes
  scheduleIntervalSeconds : Int64
  schedule : Bytes
  maxRetries : Int64
  retryBackoffSeconds : Int64
  deriving DecidableEq

structure ValidationError where
  field : Bytes
  reason : Bytes
  deriving DecidableEq

/-- What the standard library adds: `%q`, and the table of the time zones, which has an error text for
the names that it does not know. -/
structure Zones where
  quote : Bytes → Bytes
  loadLocation : Bytes → Except Bytes Location

def cut (sep : UInt8) : Bytes → Option (Bytes × Bytes)
  | [] => none
  | byte :: rest =>
    if byte = sep then some ([], rest)
    else (cut sep rest).map fun parts => (byte :: parts.1, parts.2)

def dailyKind : Bytes := ascii "daily@".toList

/-- What `strconv.Atoi` reads, if it lies between zero and the bound. -/
def parseField (text : Bytes) (bound : Int64) : Option Int :=
  (parseInt64 text).bind fun value => if value < 0 ∨ bound < value then none else some value.toInt

/-- The hour, the minute and the zone of `daily@HH:MM <zone>`. -/
def parseSchedule (zones : Zones) (s : Bytes) : Except Bytes (Int × Int × Location) :=
  if dailyKind.isPrefixOf s = false then
    .error (utf8 "格式应为 daily@HH:MM <IANA时区>，got " ++ zones.quote s)
  else
    match cut 32 (s.drop dailyKind.length) with
    | none | some (_, []) => .error (utf8 "缺少 IANA 时区（如 Asia/Shanghai），got " ++ zones.quote s)
    | some (timeStr, zone) =>
      match cut 58 timeStr with
      | none => .error (utf8 "时刻格式应为 HH:MM，got " ++ zones.quote timeStr)
      | some (hStr, mStr) =>
        match parseField hStr 23, parseField mStr 59, zones.loadLocation zone with
        | none, _, _ => .error (utf8 "小时非法（00-23）：" ++ zones.quote hStr)
        | some _, none, _ => .error (utf8 "分钟非法（00-59）：" ++ zones.quote mStr)
        | some _, some _, .error cause =>
          .error (utf8 "未知 IANA 时区 " ++ zones.quote zone ++ utf8 ": " ++ cause)
        | some hour, some min, .ok loc => .ok (hour, min, loc)

def dependencyField (i : Nat) : Bytes := ascii "depends_on[".toList ++ decimal i ++ ascii "]".toList

def validateDependsOn (name : Bytes) : Nat → List Bytes → Option ValidationError
  | _, [] => none
  | i, dep :: rest =>
    if dep = [] then some ⟨dependencyField i, utf8 "依赖名不能为空字符串"⟩
    else if dep = name then some ⟨dependencyField i, utf8 "job 不能依赖自己"⟩
    else validateDependsOn name (i + 1) rest

namespace JobSpec

variable (zones : Zones) (spec : JobSpec)

def scheduleError : Option Bytes :=
  if spec.schedule = [] then none
  else
    match parseSchedule zones spec.schedule with
    | .ok _ => none
    | .error reason => some reason

def validate : Option ValidationError :=
  if spec.name = [] then some ⟨ascii "name".toList, utf8 "不能为空"⟩
  else if spec.command = [] then some ⟨ascii "command".toList, utf8 "不能为空数组"⟩
  else if spec.command.head? = some [] then
    some ⟨ascii "command[0]".toList, utf8 "可执行文件路径不能为空字符串"⟩
  else if spec.scheduleIntervalSeconds ≤ 0 then
    some ⟨ascii "schedule_interval_seconds".toList, utf8 "必须为正整数"⟩
  else
    match spec.scheduleError zones with
    | some reason => some ⟨ascii "schedule".toList, reason⟩
    | none =>
      if spec.maxRetries < 0 then some ⟨ascii "max_retries".toList, utf8 "不能为负数"⟩
      else if spec.retryBackoffSeconds < 0 then
        some ⟨ascii "retry_backoff_seconds".toList, utf8 "不能为负数"⟩
      else validateDependsOn spec.name 0 spec.dependsOn

/-- `CanonicalJSON` by the encoder of its fields, in which the dependencies are sorted. -/
def canonicalJSON (marshal : JobSpec → Bytes) : Bytes :=
  marshal { spec with dependsOn := spec.dependsOn.insertionSort fun left right => left ≤ right }

def fingerprint (marshal : JobSpec → Bytes) : Bytes := hexEncode (sha256 (spec.canonicalJSON marshal))

/-- The hour, minute and zone that the slots are counted from, if the spec declares them. -/
def anchor : Option (Int × Int × Location) :=
  if spec.schedule = [] then none
  else
    match parseSchedule zones spec.schedule with
    | .ok anchor => some anchor
    | .error _ => none

def slot (now : Int) : Option Int64 :=
  match spec.anchor zones with
  | some (hour, min, loc) => anchoredSlot now spec.scheduleIntervalSeconds loc hour min
  | none => Jobctl.slot now spec.scheduleIntervalSeconds

end JobSpec

theorem validateDependsOn_eq_none (name : Bytes) (i : Nat) (deps : List Bytes) :
    validateDependsOn name i deps = none ↔ ∀ dep ∈ deps, dep ≠ [] ∧ dep ≠ name := by
  induction deps generalizing i with
  | nil => simp [validateDependsOn]
  | cons dep rest ih =>
    rw [validateDependsOn, List.forall_mem_cons, ← ih (i + 1)]
    split_ifs with empty own
    · simp [empty]
    · simp [own]
    · simp [empty, own]

structure JobSpec.Valid (zones : Zones) (spec : JobSpec) : Prop where
  name : spec.name ≠ []
  command : ∃ path args, spec.command = path :: args ∧ path ≠ []
  interval : 0 < spec.scheduleIntervalSeconds
  schedule : spec.schedule ≠ [] → ∃ anchor, spec.anchor zones = some anchor
  maxRetries : 0 ≤ spec.maxRetries
  backoff : 0 ≤ spec.retryBackoffSeconds
  dependsOn : ∀ dep ∈ spec.dependsOn, dep ≠ [] ∧ dep ≠ spec.name

theorem check_eq_none {failed : Prop} [Decidable failed] (error : ValidationError)
    (rest : Option ValidationError) :
    (if failed then some error else rest) = none ↔ ¬failed ∧ rest = none := by
  split_ifs with is <;> simp [is]

theorem JobSpec.scheduleError_eq_none (zones : Zones) (spec : JobSpec) :
    spec.scheduleError zones = none ↔
      (spec.schedule ≠ [] → ∃ anchor, spec.anchor zones = some anchor) := by
  rw [scheduleError, anchor]
  split_ifs with undeclared
  · simp [undeclared]
  · cases parseSchedule zones spec.schedule <;> simp [undeclared]

theorem JobSpec.validate_eq_none_iff (zones : Zones) (spec : JobSpec) :
    spec.validate zones = none ↔ spec.Valid zones := by
  rw [validate, check_eq_none, check_eq_none, check_eq_none, check_eq_none]
  constructor
  · rintro ⟨name, command, path, interval, rest⟩
    cases refused : spec.scheduleError zones with
    | some reason => simp [refused] at rest
    | none =>
      simp only [refused, check_eq_none, validateDependsOn_eq_none] at rest
      rcases rest with ⟨maxRetries, backoff, dependsOn⟩
      cases words : spec.command with
      | nil => exact absurd words command
      | cons first args =>
        have named : first ≠ [] := by simpa [words] using path
        exact ⟨name, ⟨first, args, words, named⟩, Int64.not_le.mp interval,
          (spec.scheduleError_eq_none zones).mp refused, Int64.not_lt.mp maxRetries,
          Int64.not_lt.mp backoff, dependsOn⟩
  · intro valid
    rcases valid.command with ⟨first, args, words, named⟩
    have accepted := (spec.scheduleError_eq_none zones).mpr valid.schedule
    simp only [accepted, check_eq_none, validateDependsOn_eq_none]
    exact ⟨valid.name, by simp [words], by simpa [words] using named, Int64.not_le.mpr valid.interval,
      Int64.not_lt.mpr valid.maxRetries, Int64.not_lt.mpr valid.backoff, valid.dependsOn⟩

theorem fingerprint_valid (marshal : JobSpec → Bytes) (spec : JobSpec) :
    Utf8.Valid (spec.fingerprint marshal) :=
  Utf8.valid_of_ascii _ (hexEncode_lt _)

end KairosFlux.Jobctl
