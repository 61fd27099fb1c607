import KairosFlux.Service.RouterV2

/-! How a connection with window acknowledgements accounts for its writes: every write is counted by
exactly one acknowledgement or is in the open window, and the totals are over all writes. -/

namespace KairosFlux.Service

open Lib List V2ConnState

structure Write where
  corrID : UInt32
  result : Option Rejection

structure Exchange where
  write : Option Write
  sent : List Response

/-- A connection together with all that has passed over it. -/
structure Session (σ : Type) where
  backend : σ
  conn : V2ConnState
  log : List Exchange

def RequestV2.IsWrite (req : RequestV2) : Prop := req.opcode = opcodePut ∨ req.opcode = opcodeDel
deriving Decidable

namespace Session

variable {σ : Type}

def new (s : σ) : Session σ := ⟨s, .new, []⟩

def exchange (r : RouterV2 σ) (tier : AckTier) (session : Session σ) (req : RequestV2) : Exchange where
  write :=
    if req.IsWrite then some ⟨req.corrID, (r.backend.applyWrite session.backend req).2⟩ else none
  sent := (r.handleV2 tier session.backend session.conn req).2.2

def step (r : RouterV2 σ) (tier : AckTier) (session : Session σ) (req : RequestV2) : Session σ where
  backend := (r.handleV2 tier session.backend session.conn req).1
  conn := (r.handleV2 tier session.backend session.conn req).2.1
  log := session.log ++ [session.exchange r tier req]

end Session

open Session

def writes (log : List Exchange) : List Write := log.filterMap Exchange.write

/-- An acknowledgement that counts something. -/
def Response.counted? : Response → Option V2AckFields
  | windowAck fields => if fields.counts.received = 0 then none else some fields
  | _ => none

def counted (sent : List Response) : List V2AckFields := sent.filterMap Response.counted?

def windowAcks (log : List Exchange) : List V2AckFields := log.flatMap fun ex => counted ex.sent

structure Totals (ws : List Write) (c : Counts) : Prop where
  received : c.received.toNat = ws.length
  accepted : c.accepted.toNat = ws.countP fun w => w.result.isNone
  rejected : c.rejected.toNat = ws.countP fun w => w.result.isSome
  first : (⟨c.firstErrCode, c.firstErrReason⟩ : Rejection) =
    (ws.filterMap Write.result).head?.getD ⟨errCodeNone, []⟩

/-- An acknowledgement and the writes it counts. -/
structure Covers (windowSafetyValveN : UInt32) (group : List Write) (ack : V2AckFields) : Prop where
  nonempty : group ≠ []
  corrID : ∀ w ∈ group, w.corrID = ack.corrID
  totals : Totals group ack.counts
  bound : ack.counts.received ≤ windowSafetyValveN
  sum : ack.counts.received.toNat = ack.counts.accepted.toNat + ack.counts.rejected.toNat

/-- The open window and the writes in it. -/
structure Window (windowSafetyValveN : UInt32) (conn : V2ConnState) (ws : List Write) : Prop where
  opened : conn.windowOpen = true
  corrID : ∀ w ∈ ws, w.corrID = conn.windowCorrID
  totals : Totals ws conn.window
  room : conn.window.received < windowSafetyValveN

def Pending (windowSafetyValveN : UInt32) (conn : V2ConnState) (ws : List Write) : Prop :=
  (conn.windowOpen = false ∧ ws = []) ∨ (Window windowSafetyValveN conn ws ∧ ws ≠ [])

/-- The acknowledgements split the writes, in order, up to those in the open window. -/
def Split (windowSafetyValveN : UInt32) (conn : V2ConnState) (ws : List Write)
    (acks : List V2AckFields) : Prop :=
  ∃ groups last, ws = groups.flatten ++ last ∧
    List.Forall₂ (Covers windowSafetyValveN) groups acks ∧ Pending windowSafetyValveN conn last

def Write.Named (w : Write) : Prop :=
  ∀ rejection, w.result = some rejection → ¬ (rejection.code = errCodeNone ∧ rejection.reason = [])

theorem toNat_add_one {c : UInt32} {count : Nat} (same : c.toNat = count) (small : count + 1 < 2 ^ 32) :
    (c + 1).toNat = count + 1 := by
  rw [UInt32.toNat_add, same]
  exact Nat.mod_eq_of_lt small

theorem Totals.zero : Totals [] .zero := ⟨rfl, rfl, rfl, rfl⟩

section

variable {ws : List Write} {c : Counts} (totals : Totals ws c)
include totals

theorem Totals.sum : c.received.toNat = c.accepted.toNat + c.rejected.toNat := by
  have both := ws.length_eq_countP_add_countP fun w => w.result.isNone
  rw [totals.received, totals.accepted, totals.rejected, both]
  congr 2
  funext w
  cases w.result <;> rfl

theorem Totals.first_iff (named : ∀ w ∈ ws, w.Named) :
    (c.firstErrCode = errCodeNone ∧ c.firstErrReason = []) ↔ ws.filterMap Write.result = [] := by
  have first := totals.first
  cases rejections : ws.filterMap Write.result with
  | nil =>
    rw [rejections] at first
    rcases Rejection.mk.inj first with ⟨code, reason⟩
    exact ⟨fun _ => rfl, fun _ => ⟨code, reason⟩⟩
  | cons rejection rest =>
    have member : rejection ∈ ws.filterMap Write.result := by
      rw [rejections]
      exact .head _
    rcases mem_filterMap.mp member with ⟨w, inside, result⟩
    have known := named w inside rejection result
    rw [rejections, List.head?_cons, Option.getD_some] at first
    rw [← first] at known
    exact ⟨fun none => absurd none known, fun none => nomatch none⟩

theorem Totals.count (named : ∀ w ∈ ws, w.Named) (w : Write) (small : ws.length + 1 < 2 ^ 32) :
    Totals (ws ++ [w]) (c.count w.result) := by
  have received := toNat_add_one totals.received small
  have fewer : ∀ test : Write → Bool, ws.countP test + 1 < 2 ^ 32 := fun _ =>
    (Nat.succ_le_succ countP_le_length).trans_lt small
  cases result : w.result with
  | none =>
    refine ⟨?_, ?_, ?_, ?_⟩
    · simpa [Counts.count] using received
    · simpa [Counts.count, result] using toNat_add_one totals.accepted (fewer _)
    · simpa [Counts.count, result] using totals.rejected
    · simpa [Counts.count, result] using totals.first
  | some rejection =>
    refine ⟨?_, ?_, ?_, ?_⟩
    · simpa [Counts.count] using received
    · simpa [Counts.count, result] using totals.accepted
    · simpa [Counts.count, result] using toNat_add_one totals.rejected (fewer _)
    · have none := totals.first_iff named
      rw [filterMap_append, Counts.count]
      by_cases fresh : ws.filterMap Write.result = []
      · simp [none.mpr fresh, fresh, result]
      · have seen := mt none.mp fresh
        simp only [if_neg seen, totals.first]
        rw [List.head?_append_of_ne_nil _ fresh]

end

section

variable {windowSafetyValveN : UInt32} {conn : V2ConnState} {ws : List Write}
  {acks : List V2AckFields}

theorem split_closeWindow {groups : List (List Write)} {last : List Write}
    (same : ws = groups.flatten ++ last)
    (covers : List.Forall₂ (Covers windowSafetyValveN) groups acks) (nonempty : last ≠ [])
    (corrID : ∀ w ∈ last, w.corrID = conn.windowCorrID) (totals : Totals last conn.window)
    (bound : conn.window.received ≤ windowSafetyValveN) :
    Split windowSafetyValveN conn.closeWindow.1 ws (acks ++ counted conn.closeWindow.2) := by
  have some : conn.window.received ≠ 0 := by
    intro zero
    have length := totals.received
    rw [zero] at length
    exact nonempty (eq_nil_of_length_eq_zero length.symm)
  have ack : counted conn.closeWindow.2 = [⟨conn.windowCorrID, conn.window⟩] := by
    simp [closeWindow, counted, Response.counted?, some]
  refine ⟨groups ++ [last], [], ?_, ?_, .inl ⟨rfl, rfl⟩⟩
  · rw [same]
    simp
  · rw [ack]
    exact rel_append covers (.cons ⟨nonempty, corrID, totals, bound, totals.sum⟩ .nil)

section

variable (split : Split windowSafetyValveN conn ws acks)
include split

theorem Split.closeWindow (opened : conn.windowOpen = true) :
    Split windowSafetyValveN conn.closeWindow.1 ws (acks ++ counted conn.closeWindow.2) := by
  rcases split with ⟨groups, last, same, covers, ⟨closed, _⟩ | ⟨window, nonempty⟩⟩
  · rw [closed] at opened
    cases opened
  · exact split_closeWindow same covers nonempty window.corrID window.totals
      (UInt32.le_of_lt window.room)

theorem Split.flush : Split windowSafetyValveN conn.flush.1 ws (acks ++ counted conn.flush.2) := by
  rw [V2ConnState.flush]
  split_ifs with opened
  · exact split.closeWindow opened
  · simpa [counted] using split

theorem Split.leaveWindow (corrID : UInt32) :
    Split windowSafetyValveN (conn.leaveWindow corrID).1 ws
      (acks ++ counted (conn.leaveWindow corrID).2) := by
  rw [V2ConnState.leaveWindow]
  split_ifs with other
  · exact split.closeWindow other.1
  · simpa [counted] using split

end

theorem leaveWindow_corrID (conn : V2ConnState) (corrID : UInt32)
    (opened : (conn.leaveWindow corrID).1.windowOpen = true) :
    (conn.leaveWindow corrID).1.windowCorrID = corrID := by
  rw [leaveWindow] at opened ⊢
  split_ifs at opened ⊢ with other
  · cases opened
  · by_contra different
    exact other ⟨opened, different⟩

theorem Split.enterWindow (split : Split windowSafetyValveN conn ws acks)
    (valve : 0 < windowSafetyValveN) {corrID : UInt32}
    (own : conn.windowOpen = true → conn.windowCorrID = corrID) :
    ∃ groups last, ws = groups.flatten ++ last ∧
      List.Forall₂ (Covers windowSafetyValveN) groups acks ∧
      Window windowSafetyValveN (conn.enterWindow corrID) last ∧
      (conn.enterWindow corrID).windowCorrID = corrID := by
  rcases split with ⟨groups, last, same, covers, ⟨closed, rfl⟩ | ⟨window, _⟩⟩
  · refine ⟨groups, [], same, covers, ?_, ?_⟩
    · rw [V2ConnState.enterWindow, if_neg (by simp [closed])]
      exact ⟨rfl, nofun, .zero, valve⟩
    · rw [V2ConnState.enterWindow, if_neg (by simp [closed])]
  · refine ⟨groups, last, same, covers, ?_, ?_⟩
    · rw [V2ConnState.enterWindow, if_pos window.opened]
      exact window
    · rw [V2ConnState.enterWindow, if_pos window.opened]
      exact own window.opened

theorem Split.record (split : Split windowSafetyValveN conn ws acks)
    (valve : 0 < windowSafetyValveN) (named : ∀ w ∈ ws, w.Named) (w : Write)
    (small : ws.length + 1 < 2 ^ 32) :
    Split windowSafetyValveN (conn.recordIntoWindow windowSafetyValveN w.corrID w.result).1
      (ws ++ [w])
      (acks ++ counted (conn.recordIntoWindow windowSafetyValveN w.corrID w.result).2) := by
  rcases (split.leaveWindow w.corrID).enterWindow valve (leaveWindow_corrID conn w.corrID) with
    ⟨groups, last, same, covers, window, own⟩
  rw [recordIntoWindow]
  simp only
  generalize (conn.leaveWindow w.corrID).1.enterWindow w.corrID = entered at window own
  have inside : ∀ other ∈ last, other ∈ ws := by
    intro other member
    rw [same]
    exact mem_append_right _ member
  have fewer : last.length + 1 < 2 ^ 32 := by
    rw [same, length_append] at small
    omega
  have counts := window.totals.count (fun other member => named other (inside other member)) w fewer
  have corrID : ∀ other ∈ last ++ [w], other.corrID = entered.windowCorrID :=
    forall_mem_append.mpr ⟨window.corrID, forall_mem_singleton.mpr own.symm⟩
  have full : ws ++ [w] = groups.flatten ++ (last ++ [w]) := by rw [same, append_assoc]
  have nonempty : last ++ [w] ≠ [] := append_ne_nil_of_right_ne_nil _ (cons_ne_nil _ _)
  have bound : (entered.window.count w.result).received.toNat ≤ windowSafetyValveN.toNat := by
    have room := UInt32.lt_iff_toNat_lt.mp window.room
    rw [window.totals.received] at room
    rw [counts.received, length_append, length_singleton]
    exact room
  rw [counted, filterMap_append, ← append_assoc, closeFull]
  split_ifs with valveReached
  · exact split_closeWindow full covers nonempty corrID counts (UInt32.le_iff_toNat_le.mpr bound)
  · rw [filterMap_nil, append_nil]
    refine ⟨groups, last ++ [w], full, covers, .inr ⟨⟨window.opened, corrID, counts, ?_⟩, nonempty⟩⟩
    exact UInt32.not_le.mp valveReached

end

/-- A STAT_ACK reports the writes before it. -/
def StatsTrue (log : List Exchange) : Prop :=
  ∀ before ex after, log = before ++ ex :: after →
    ∀ fields, Response.statAck fields ∈ ex.sent → Totals (writes before) fields.counts

structure Accounted (windowSafetyValveN : UInt32) (conn : V2ConnState) (log : List Exchange) :
    Prop where
  named : ∀ w ∈ writes log, w.Named
  totals : Totals (writes log) conn.cum
  split : Split windowSafetyValveN conn (writes log) (windowAcks log)
  stats : StatsTrue log

theorem Accounted.new (windowSafetyValveN : UInt32) : Accounted windowSafetyValveN .new [] where
  named _ member := nomatch member
  totals := .zero
  split := ⟨[], [], rfl, .nil, .inl ⟨rfl, rfl⟩⟩
  stats before ex after same := by simp at same

theorem StatsTrue.snoc {log : List Exchange} (stats : StatsTrue log) {ex : Exchange}
    (new : ∀ fields, Response.statAck fields ∈ ex.sent → Totals (writes log) fields.counts) :
    StatsTrue (log ++ [ex]) := by
  intro before other after same fields member
  rcases after.eq_nil_or_concat' with rfl | ⟨rest, last, rfl⟩
  · rcases append_inj' same rfl with ⟨rfl, ends⟩
    obtain rfl := (List.cons.inj ends).1
    exact new fields member
  · rw [← cons_append, ← append_assoc] at same
    exact stats before other rest (append_inj' same rfl).1 fields member

section

variable {σ : Type} (r : RouterV2 σ)

/-- Handling a frame that is not a write: the window stays or is closed, the totals stay, and a
STAT_ACK carries them. -/
structure Reports (conn after : V2ConnState) (sent : List Response) : Prop where
  cum : after.cum = conn.cum
  window : (after = conn ∧ counted sent = []) ∨
    (after = conn.flush.1 ∧ counted sent = counted conn.flush.2)
  stats : ∀ fields, Response.statAck fields ∈ sent → fields.counts = conn.cum

theorem flush_cum (conn : V2ConnState) : conn.flush.1.cum = conn.cum := by
  rw [flush]
  split_ifs <;> rfl

theorem handleAnswer_sent (s : σ) (req : RequestV2) : counted (r.handleAnswer s req).2 = [] ∧
      ∀ fields, Response.statAck fields ∉ (r.handleAnswer s req).2 := by
  rw [RouterV2.handleAnswer]
  split <;> simp [counted, Response.counted?]

theorem Reports.same {conn : V2ConnState} {sent : List Response} (none : counted sent = [])
    (silent : ∀ fields, Response.statAck fields ∉ sent) : Reports conn conn sent where
  cum := rfl
  window := .inl ⟨rfl, none⟩
  stats fields member := absurd member (silent fields)

theorem Reports.flushed {conn : V2ConnState} {sent : List Response} (none : counted sent = [])
    (stats : ∀ fields, Response.statAck fields ∈ sent → fields.counts = conn.cum) :
    Reports conn conn.flush.1 (conn.flush.2 ++ sent) where
  cum := flush_cum conn
  window := by
    right
    rw [counted, filterMap_append, ← counted, ← counted, none, append_nil]
    exact ⟨rfl, rfl⟩
  stats fields member := by
    rcases mem_append.mp member with early | late
    · refine absurd early ?_
      rw [flush, closeWindow]
      split_ifs <;> simp
    · exact stats fields late

theorem reports_handleV2 (s : σ) (conn : V2ConnState) (req : RequestV2) (read : ¬ req.IsWrite) :
    Reports conn (r.handleV2 .window s conn req).2.1 (r.handleV2 .window s conn req).2.2 := by
  rw [RequestV2.IsWrite] at read
  have answered := handleAnswer_sent r s req
  rw [RouterV2.handleV2, if_neg read]
  split_ifs
  · -- GET and SCAN
    exact .flushed answered.1 fun fields member => absurd member (answered.2 fields)
  · -- FLUSH
    rw [RouterV2.handleFlush]
    split_ifs with opened
    · have flushed : Reports conn conn.flush.1 (conn.flush.2 ++ []) :=
        .flushed rfl nofun
      rwa [append_nil, flush, if_pos opened.2] at flushed
    · exact .same rfl (by simp)
  · -- STAT
    refine ⟨rfl, .inl ⟨rfl, rfl⟩, fun fields member => ?_⟩
    obtain rfl := Response.statAck.inj (mem_singleton.mp member)
    rfl
  · -- BYE
    refine .flushed rfl fun fields member => ?_
    obtain rfl := Response.statAck.inj (mem_singleton.mp member)
    exact flush_cum conn
  · exact .same answered.1 answered.2
  · exact .same rfl (by simp)

theorem writes_snoc (log : List Exchange) (ex : Exchange) :
    writes (log ++ [ex]) = writes log ++ ex.write.toList := by
  cases result : ex.write <;> simp [writes, result]

theorem windowAcks_snoc (log : List Exchange) (ex : Exchange) :
    windowAcks (log ++ [ex]) = windowAcks log ++ counted ex.sent := by
  simp [windowAcks]

theorem recordIntoWindow_cum (conn : V2ConnState) (windowSafetyValveN corrID : UInt32)
    (result : Option Rejection) :
    (conn.recordIntoWindow windowSafetyValveN corrID result).1.cum = conn.cum.count result := by
  have left : (conn.leaveWindow corrID).1.cum = conn.cum := by
    rw [leaveWindow]
    split_ifs <;> rfl
  have entered : ((conn.leaveWindow corrID).1.enterWindow corrID).cum = conn.cum := by
    rw [enterWindow]
    split_ifs <;> exact left
  rw [recordIntoWindow, ← entered]
  simp only
  rw [closeFull]
  split_ifs <;> rfl

variable {r} {session : Session σ}

theorem Accounted.write (accounted : Accounted r.windowSafetyValveN session.conn session.log)
    (valve : 0 < r.windowSafetyValveN) (small : session.log.length + 1 < 2 ^ 32)
    {req : RequestV2} (isWrite : req.IsWrite) :
    Accounted r.windowSafetyValveN (session.step r .window req).conn
      (session.step r .window req).log := by
  let w : Write := ⟨req.corrID, (r.backend.applyWrite session.backend req).2⟩
  have handled : r.handleV2 .window session.backend session.conn req =
      r.handleWrite .window session.backend session.conn req := if_pos isWrite
  have named : w.Named := r.backend.applyWrite_named session.backend req
  have fewer : (writes session.log).length + 1 < 2 ^ 32 :=
    (Nat.succ_le_succ (length_filterMap_le _ _)).trans_lt small
  have logged : (session.step r .window req).log = session.log ++
      [⟨some w, (session.conn.recordIntoWindow r.windowSafetyValveN w.corrID w.result).2⟩] := by
    rw [step, exchange, handled, if_pos isWrite]
    rfl
  have conn : (session.step r .window req).conn =
      (session.conn.recordIntoWindow r.windowSafetyValveN w.corrID w.result).1 := by
    rw [step, handled]
    rfl
  rw [logged, conn]
  refine ⟨?_, ?_, ?_, ?_⟩
  · rw [writes_snoc]
    exact forall_mem_append.mpr ⟨accounted.named, forall_mem_singleton.mpr named⟩
  · rw [writes_snoc, recordIntoWindow_cum]
    exact accounted.totals.count accounted.named w fewer
  · rw [writes_snoc, windowAcks_snoc]
    exact accounted.split.record valve accounted.named w fewer
  · refine accounted.stats.snoc fun fields member => absurd member ?_
    rw [recordIntoWindow]
    simp only
    rw [leaveWindow, closeFull]
    split_ifs <;> simp [closeWindow]

theorem Accounted.read (accounted : Accounted r.windowSafetyValveN session.conn session.log)
    {req : RequestV2} (isRead : ¬ req.IsWrite) :
    Accounted r.windowSafetyValveN (session.step r .window req).conn
      (session.step r .window req).log := by
  have reports := reports_handleV2 r session.backend session.conn req isRead
  have same : writes (session.step r .window req).log = writes session.log := by
    rw [step, writes_snoc, exchange, if_neg isRead]
    exact append_nil _
  refine ⟨?_, ?_, ?_, ?_⟩
  · rw [same]
    exact accounted.named
  · rw [same, step, reports.cum]
    exact accounted.totals
  · rw [same, step, windowAcks_snoc, exchange]
    rcases reports.window with ⟨stays, none⟩ | ⟨closed, acks⟩
    · rw [stays, none, append_nil]
      exact accounted.split
    · rw [closed, acks]
      exact accounted.split.flush
  · apply accounted.stats.snoc
    intro fields member
    rw [reports.stats fields member]
    exact accounted.totals

theorem accounted_run (r : RouterV2 σ) (valve : 0 < r.windowSafetyValveN) (s : σ)
    (reqs : List RequestV2) (short : reqs.length < 2 ^ 32) :
    Accounted r.windowSafetyValveN (run (step r .window) (.new s) reqs).conn
      (run (step r .window) (.new s) reqs).log ∧
    (run (step r .window) (.new s) reqs).log.length = reqs.length ∧
    (writes (run (step r .window) (.new s) reqs).log).map Write.corrID =
      (reqs.filter fun req => req.IsWrite).map RequestV2.corrID := by
  induction reqs using List.reverseRecOn with
  | nil => exact ⟨.new _, rfl, rfl⟩
  | append_singleton reqs req ih =>
    rw [length_append, length_singleton] at short
    rcases ih (Nat.lt_of_succ_lt short) with ⟨accounted, length, frames⟩
    rw [run_append]
    generalize run (step r .window) (.new s) reqs = session at accounted length frames
    refine ⟨?_, ?_, ?_⟩
    · by_cases isWrite : req.IsWrite
      · exact accounted.write valve (by rw [length]; exact short) isWrite
      · exact accounted.read isWrite
    · rw [length_append, ← length]
      exact length_append
    · have last : run (step r .window) session [req] = session.step r .window req := rfl
      rw [last, step, writes_snoc, map_append, frames, filter_append, map_append, exchange]
      by_cases isWrite : req.IsWrite <;> simp [isWrite]

end

/-- On a connection with window acknowledgements the PUT and DEL frames are split, in order, into
those each acknowledgement counts and those in the open window, and every STAT_ACK reports the totals
of the frames before it. -/
theorem window_accounting {σ : Type} (r : RouterV2 σ) (valve : 0 < r.windowSafetyValveN) (s : σ)
    (reqs : List RequestV2) (short : reqs.length < 2 ^ 32) :
    let session := run (step r .window) (.new s) reqs
    (writes session.log).map Write.corrID =
        (reqs.filter fun req => req.IsWrite).map RequestV2.corrID ∧
      Split r.windowSafetyValveN session.conn (writes session.log) (windowAcks session.log) ∧
      StatsTrue session.log := by
  intro session
  rcases accounted_run r valve s reqs short with ⟨accounted, _, frames⟩
  exact ⟨frames, accounted.split, accounted.stats⟩

def plainBackend : Backend Unit where
  blocked _ := false
  validateForType := none
  write s _ := (s, true)
  answer s _ := (s, .ok [])

/-- Two writes of one group and a malformed one of another, with a window of three, then STAT. -/
theorem window_accounting_two_groups :
    let put : RequestV2 := ⟨opcodePut, 0, 1, [1, 0, 0, 0, 0, 0, 0, 0, 107]⟩
    let session := run (step ⟨plainBackend, 3⟩ .window) (.new ())
      [put, put, ⟨opcodeDel, 0, 2, []⟩, ⟨opcodeStat, 0, 9, []⟩]
    windowAcks session.log = [⟨1, 2, 2, 0, 0, []⟩] ∧
      Split 3 session.conn (writes session.log) (windowAcks session.log) ∧
      StatsTrue session.log := by
  intro put session
  refine ⟨by decide, ?_⟩
  exact (window_accounting ⟨plainBackend, 3⟩ (by decide) () _ (by decide)).2

end KairosFlux.Service
