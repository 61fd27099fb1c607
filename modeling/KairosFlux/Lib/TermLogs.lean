import Mathlib.Data.Fintype.Card
import Mathlib.Data.List.Infix

/-! Logs of leaders that follow each other in numbered terms. Every term has at most one leader, who
starts from a log of its own and adds entries of its term; a majority elects, and a majority that
holds a log in a term of its own commits it. -/

namespace KairosFlux.Lib

open List Function

section Majorities

variable {Node : Type} [Fintype Node] [DecidableEq Node]

def Majority (group : Finset Node) : Prop := Fintype.card Node / 2 < group.card

theorem Majority.meet {first second : Finset Node} (left : Majority first) (right : Majority second) :
    ∃ node, node ∈ first ∧ node ∈ second := by
  have many : (Finset.univ : Finset Node).card < first.card + second.card := by
    rw [Majority] at left right
    rw [Finset.card_univ]
    omega
  rcases Finset.inter_nonempty_of_card_lt_card_add_card first.subset_univ second.subset_univ many with
    ⟨node, both⟩
  exact ⟨node, Finset.mem_inter.mp both⟩

end Majorities

/-- Who leads a term, the log it starts from, and its log so far. -/
structure Reigns (Node Entry : Type) where
  leader : Nat → Option Node
  base : Nat → List Entry
  log : Nat → List Entry

variable {Node Entry : Type} (term : Entry → Nat)

/-- Up to each of its entries the log is that of the leader who made the entry. -/
def Grounded (h : Reigns Node Entry) (log : List Entry) : Prop :=
  ∀ front entry, front ++ [entry] <+: log →
    h.leader (term entry) ≠ none ∧ front ++ [entry] <+: h.log (term entry)

structure Reigns.Sound (h : Reigns Node Entry) : Prop where
  base_le : ∀ T, h.base T <+: h.log T
  earlier : ∀ T, ∀ entry ∈ h.base T, term entry < T
  own : ∀ T front entry, front ++ [entry] <+: h.log T → (h.base T).length ≤ front.length →
    term entry = T
  grounded : ∀ T, h.leader T ≠ none → Grounded term h (h.log T)

/-- The same terms and more, with the same starts and longer logs. -/
structure Reigns.Extends (h later : Reigns Node Entry) : Prop where
  leader : ∀ T, h.leader T ≠ none → later.leader T = h.leader T
  base : ∀ T, h.leader T ≠ none → later.base T = h.base T
  log : ∀ T, h.leader T ≠ none → h.log T <+: later.log T

/-- A leader between the two terms starts without the log. -/
def Lost (h : Reigns Node Entry) (T U : Nat) (log : List Entry) : Prop :=
  ∃ V, T < V ∧ V < U ∧ h.leader V ≠ none ∧ ¬ log <+: h.base V

/-- The first log does not end in an earlier term than the second, nor before it in the same term. -/
def UpToDate (first second : List Entry) : Prop :=
  ∀ front entry, second = front ++ [entry] → ∃ before last, first = before ++ [last] ∧
    (term entry < term last ∨ (term entry = term last ∧ front.length ≤ before.length))

theorem eq_of_shared {first second whole : List Entry} (left : first <+: whole)
    (right : second <+: whole) (same : first.length = second.length) : first = second :=
  (prefix_of_prefix_length_le left right same.le).eq_of_length same

variable {term} {h later : Reigns Node Entry} {log first second : List Entry}

namespace Reigns.Extends

theorem refl (h : Reigns Node Entry) : h.Extends h :=
  ⟨fun _ _ => rfl, fun _ _ => rfl, fun _ _ => prefix_rfl⟩

theorem ruled (extension : h.Extends later) {T : Nat} (ruled : h.leader T ≠ none) :
    later.leader T ≠ none := by
  rw [extension.leader T ruled]
  exact ruled

theorem trans {middle : Reigns Node Entry} (first : h.Extends middle)
    (second : middle.Extends later) : h.Extends later where
  leader T led := (second.leader T (first.ruled led)).trans (first.leader T led)
  base T led := (second.base T (first.ruled led)).trans (first.base T led)
  log T led := (first.log T led).trans (second.log T (first.ruled led))

theorem grounded (extension : h.Extends later) (grounded : Grounded term h log) :
    Grounded term later log := by
  intro front entry inside
  rcases grounded front entry inside with ⟨ruled, upTo⟩
  exact ⟨extension.ruled ruled, upTo.trans (extension.log _ ruled)⟩

theorem lost (extension : h.Extends later) {T U : Nat} (lost : Lost h T U log) :
    Lost later T U log := by
  rcases lost with ⟨V, after, before, ruled, absent⟩
  refine ⟨V, after, before, extension.ruled ruled, ?_⟩
  rw [extension.base V ruled]
  exact absent

end Reigns.Extends

theorem Lost.mono {T U V : Nat} (lost : Lost h T U log) (upTo : U ≤ V) : Lost h T V log := by
  rcases lost with ⟨W, after, before, ruled, absent⟩
  exact ⟨W, after, before.trans_le upTo, ruled, absent⟩

theorem Lost.before {T U V : Nat} (lost : Lost h T (U + 1) log) (upTo : U ≤ V)
    (vacant : h.leader V = none) : Lost h T V log := by
  rcases lost with ⟨W, after, before, ruled, absent⟩
  refine ⟨W, after, ?_, ruled, absent⟩
  apply ((Nat.le_of_lt_succ before).trans upTo).lt_of_ne
  rintro rfl
  exact ruled vacant

namespace Grounded

theorem nil : Grounded term h [] := by
  intro front entry inside
  exact absurd (prefix_nil.mp inside) (append_ne_nil_of_right_ne_nil _ (cons_ne_nil _ _))

theorem beginning (grounded : Grounded term h second) (shorter : first <+: second) :
    Grounded term h first :=
  fun front entry inside => grounded front entry (inside.trans shorter)

theorem eq_of_term (left : Grounded term h first) (right : Grounded term h second)
    {front other : List Entry} {entry same : Entry} (inFirst : front ++ [entry] <+: first)
    (inSecond : other ++ [same] <+: second) (place : front.length = other.length)
    (terms : term entry = term same) : front ++ [entry] = other ++ [same] := by
  have upFirst := (left front entry inFirst).2
  have upSecond := (right other same inSecond).2
  rw [← terms] at upSecond
  apply eq_of_shared upFirst upSecond
  rw [length_append, length_append, place]
  rfl

end Grounded

namespace Reigns.Sound

theorem term_le (sound : h.Sound term) {T : Nat} {entry : Entry} (member : entry ∈ h.log T) :
    term entry ≤ T := by
  rcases append_of_mem member with ⟨front, back, split⟩
  have upTo : front ++ [entry] <+: h.log T := ⟨back, by rw [split, append_assoc]; rfl⟩
  by_cases early : front.length < (h.base T).length
  · have inBase : front ++ [entry] <+: h.base T := by
      apply prefix_of_prefix_length_le upTo (sound.base_le T)
      rw [length_append]
      exact early
    exact (sound.earlier T entry (inBase.subset (mem_append_right _ (.head _)))).le
  · exact (sound.own T front entry upTo (not_lt.mp early)).le

/-- A log that ends in the term of a leader has all that the leader started from. -/
theorem base_le_of_last (sound : h.Sound term) {front : List Entry} {entry : Entry}
    (grounded : Grounded term h (front ++ [entry])) :
    h.base (term entry) <+: front ++ [entry] := by
  rcases grounded front entry prefix_rfl with ⟨_, upTo⟩
  apply prefix_of_prefix_length_le (sound.base_le _) upTo
  by_contra short
  have inBase : front ++ [entry] <+: h.base (term entry) :=
    prefix_of_prefix_length_le upTo (sound.base_le _) (not_le.mp short).le
  have less := sound.earlier _ entry (inBase.subset (mem_append_right _ (.head _)))
  exact lt_irrefl _ less

/-- What a voter has, of a term and kept by all leaders since, the log it votes for has too. -/
theorem carries (sound : h.Sound term) {U : Nat} (ballot : Grounded term h first)
    (vote : Grounded term h second) (upToDate : UpToDate term first second)
    (older : ∀ entry ∈ first, term entry < U) {front : List Entry} {last : Entry}
    (held : front ++ [last] <+: second)
    (kept : ∀ V, term last < V → V < U → h.leader V ≠ none → front ++ [last] <+: h.base V) :
    front ++ [last] <+: first := by
  rcases second.eq_nil_or_concat' with rfl | ⟨before, final, rfl⟩
  · exact absurd (prefix_nil.mp held)
      (append_ne_nil_of_right_ne_nil _ (cons_ne_nil _ _))
  · have risen : term last ≤ term final := by
      rcases mem_append.mp (held.subset (mem_append_right _ (.head _))) with
        inside | here
      · exact sound.term_le ((vote before final prefix_rfl).2.subset (mem_append_left _ inside))
      · rw [mem_singleton.mp here]
    rcases upToDate before final rfl with ⟨start, top, rfl, newer | ⟨same, longer⟩⟩
    · have topIn : top ∈ start ++ [top] := mem_append_right _ (.head _)
      have ruled := (ballot start top prefix_rfl).1
      calc
        front ++ [last] <+: h.base (term top) :=
          kept _ (risen.trans_lt newer) (older top topIn) ruled
        _ <+: start ++ [top] := sound.base_le_of_last ballot
    · have upVote := (vote before final prefix_rfl).2
      have upBallot := (ballot start top prefix_rfl).2
      rw [← same] at upBallot
      apply held.trans
      apply prefix_of_prefix_length_le upVote upBallot
      rw [length_append, length_append]
      exact Nat.add_le_add_right longer 1

end Reigns.Sound

namespace Reigns

def empty : Reigns Node Entry := ⟨fun _ => none, fun _ => [], fun _ => []⟩

theorem Sound.empty : (Reigns.empty : Reigns Node Entry).Sound term where
  base_le _ := prefix_rfl
  earlier _ _ member := nomatch member
  own _ _ _ inside _ := absurd (prefix_nil.mp inside)
    (append_ne_nil_of_right_ne_nil _ (cons_ne_nil _ _))
  grounded _ ruled := absurd rfl ruled

def crown (h : Reigns Node Entry) (T : Nat) (node : Node) (log : List Entry) : Reigns Node Entry :=
  ⟨update h.leader T (some node), update h.base T log, update h.log T log⟩

def add (h : Reigns Node Entry) (T : Nat) (entry : Entry) : Reigns Node Entry :=
  { h with log := update h.log T (h.log T ++ [entry]) }

section Fields

variable {T U : Nat} {node : Node} {entry : Entry}

@[simp] theorem leader_crown : (h.crown T node log).leader T = some node := update_self _ _ _

@[simp] theorem base_crown : (h.crown T node log).base T = log := update_self _ _ _

@[simp] theorem log_crown : (h.crown T node log).log T = log := update_self _ _ _

theorem leader_crown_of_ne (apart : U ≠ T) : (h.crown T node log).leader U = h.leader U :=
  update_of_ne apart _ _

theorem base_crown_of_ne (apart : U ≠ T) : (h.crown T node log).base U = h.base U :=
  update_of_ne apart _ _

theorem log_crown_of_ne (apart : U ≠ T) : (h.crown T node log).log U = h.log U :=
  update_of_ne apart _ _

@[simp] theorem log_add : (h.add T entry).log T = h.log T ++ [entry] := update_self _ _ _

theorem log_add_of_ne (apart : U ≠ T) : (h.add T entry).log U = h.log U :=
  update_of_ne apart _ _

end Fields

theorem extends_crown {T : Nat} (vacant : h.leader T = none) (node : Node) (log : List Entry) :
    h.Extends (h.crown T node log) := by
  have other : ∀ U, h.leader U ≠ none → U ≠ T := by
    rintro U ruled rfl
    exact ruled vacant
  constructor
  case leader => exact fun U ruled => leader_crown_of_ne (other U ruled)
  case base => exact fun U ruled => base_crown_of_ne (other U ruled)
  case log =>
    intro U ruled
    rw [log_crown_of_ne (other U ruled)]

theorem extends_add (h : Reigns Node Entry) (T : Nat) (entry : Entry) : h.Extends (h.add T entry) := by
  constructor
  case leader => exact fun _ _ => rfl
  case base => exact fun _ _ => rfl
  case log =>
    intro U _
    by_cases here : U = T
    · rw [here, log_add]
      exact prefix_append _ _
    · rw [log_add_of_ne here]

/-- An entry of the term in the log of a leader to be would have come from a leader of the term. -/
theorem Sound.crown (sound : h.Sound term) {T : Nat} (vacant : h.leader T = none) (node : Node)
    (grounded : Grounded term h log) (older : ∀ entry ∈ log, term entry ≤ T) :
    (h.crown T node log).Sound term := by
  have extension := extends_crown vacant node log
  constructor
  case base_le =>
    intro U
    by_cases here : U = T
    · rw [here, base_crown, log_crown]
    · rw [base_crown_of_ne here, log_crown_of_ne here]
      exact sound.base_le U
  case earlier =>
    intro U entry
    by_cases here : U = T
    · rw [here, base_crown]
      intro member
      apply (older entry member).lt_of_ne
      intro same
      rcases append_of_mem member with ⟨front, back, split⟩
      have ruled := (grounded front entry ⟨back, by rw [split, append_assoc]; rfl⟩).1
      rw [same] at ruled
      exact ruled vacant
    · rw [base_crown_of_ne here]
      exact sound.earlier U entry
  case own =>
    intro U front entry
    by_cases here : U = T
    · rw [here, base_crown, log_crown]
      intro inside long
      have shorter := inside.length_le
      rw [length_append] at shorter
      exact absurd (shorter.trans long) (Nat.not_succ_le_self _)
    · rw [base_crown_of_ne here, log_crown_of_ne here]
      exact sound.own U front entry
  case grounded =>
    intro U
    by_cases here : U = T
    · rw [here, log_crown]
      exact fun _ => extension.grounded grounded
    · rw [leader_crown_of_ne here, log_crown_of_ne here]
      exact fun ruled => extension.grounded (sound.grounded U ruled)

theorem Sound.add (sound : h.Sound term) {T : Nat} (ruled : h.leader T ≠ none) {entry : Entry}
    (own : term entry = T) : (h.add T entry).Sound term := by
  have extension := h.extends_add T entry
  constructor
  case base_le =>
    intro U
    by_cases here : U = T
    · rw [here, log_add]
      exact (sound.base_le T).trans (prefix_append _ _)
    · rw [log_add_of_ne here]
      exact sound.base_le U
  case earlier => exact sound.earlier
  case own =>
    intro U front other
    by_cases here : U = T
    · rw [here, log_add]
      intro inside long
      rcases prefix_concat_iff.mp inside with whole | before
      · rw [(List.cons.inj (append_inj' whole rfl).2).1]
        exact own
      · exact sound.own T front other before long
    · rw [log_add_of_ne here]
      exact sound.own U front other
  case grounded =>
    intro U ruledU
    by_cases here : U = T
    · rw [here, log_add]
      intro front other inside
      rcases prefix_concat_iff.mp inside with whole | before
      · rw [whole, (List.cons.inj (append_inj' whole rfl).2).1, own, log_add]
        exact ⟨ruled, prefix_rfl⟩
      · exact extension.grounded (sound.grounded T ruled) front other before
    · rw [log_add_of_ne here]
      exact extension.grounded (sound.grounded U ruledU)

end Reigns

section Commits

variable [Fintype Node]

/-- A majority has voted on logs that keep what they had acknowledged in earlier terms, as far as no
leader in between lost it. `clock` is the term a node has reached. -/
def Elected (term : Entry → Nat) (h : Reigns Node Entry) (acked : Node → Nat → List Entry → Prop)
    (clock : Node → Nat) (U : Nat) : Prop :=
  ∃ group, Majority group ∧ ∀ voter ∈ group, U ≤ clock voter ∧ ∃ log, Grounded term h log ∧
    UpToDate term (h.base U) log ∧
      ∀ T held, T < U → acked voter T held → held <+: log ∨ Lost h T U held

/-- A majority has acknowledged the log, which ends in the term, in this term. -/
def Committed (term : Entry → Nat) (h : Reigns Node Entry) (acked : Node → Nat → List Entry → Prop)
    (T : Nat) (log : List Entry) : Prop :=
  h.leader T ≠ none ∧ log <+: h.log T ∧ (∃ front last, log = front ++ [last] ∧ term last = T) ∧
    ∃ group, Majority group ∧ ∀ node ∈ group, acked node T log

variable {acked ackedLater : Node → Nat → List Entry → Prop} {clock clockLater : Node → Nat}

/-- Nodes acknowledge only in terms they have not left. -/
theorem Elected.mono (extension : h.Extends later) {U : Nat} (ruled : h.leader U ≠ none)
    (elected : Elected term h acked clock U) (onward : ∀ node, clock node ≤ clockLater node)
    (new : ∀ node T held, ackedLater node T held → acked node T held ∨ clock node ≤ T) :
    Elected term later ackedLater clockLater U := by
  rcases elected with ⟨group, majority, votes⟩
  refine ⟨group, majority, fun voter member => ?_⟩
  rcases votes voter member with ⟨reached, log, grounded, upToDate, kept⟩
  refine ⟨reached.trans (onward voter), log, extension.grounded grounded, ?_, ?_⟩
  · rw [extension.base U ruled]
    exact upToDate
  · intro T held before acks
    rcases new voter T held acks with old | stale
    · exact (kept T held before old).imp_right extension.lost
    · exact absurd (reached.trans stale) (not_le.mpr before)

theorem Committed.mono (extension : h.Extends later) {T : Nat} (committed : Committed term h acked T log)
    (more : ∀ node T held, acked node T held → ackedLater node T held) :
    Committed term later ackedLater T log := by
  rcases committed with ⟨ruled, inside, ending, group, majority, acks⟩
  exact ⟨extension.ruled ruled, inside.trans (extension.log T ruled), ending, group, majority,
    fun node member => more node T log (acks node member)⟩

namespace Reigns.Sound

variable [DecidableEq Node]

section

variable (sound : h.Sound term)
  (elections : ∀ U, h.leader U ≠ none → Elected term h acked clock U) {T : Nat}
include sound elections

/-- Every later leader starts with all that is committed. By induction on its term: the two
majorities share a voter, and no leader in between has lost the log. -/
theorem committed_le_base
    (committed : Committed term h acked T log) (U : Nat) (after : T < U) (ruled : h.leader U ≠ none) :
    log <+: h.base U := by
  rcases committed with ⟨_, _, ⟨front, last, rfl, ending⟩, group, majority, acks⟩
  induction U using Nat.strongRecOn with
  | _ U ih =>
    rcases elections U ruled with ⟨voters, elected, votes⟩
    rcases majority.meet elected with ⟨node, inGroup, voted⟩
    rcases votes node voted with ⟨_, seen, vote, upToDate, kept⟩
    have ballot : Grounded term h (h.base U) := (sound.grounded U ruled).beginning (sound.base_le U)
    rcases kept T _ after (acks node inGroup) with held | ⟨V, afterT, beforeU, ruledV, absent⟩
    · apply sound.carries ballot vote upToDate (sound.earlier U) held
      intro V afterLast beforeU ruledV
      exact ih V beforeU (ending ▸ afterLast) ruledV
    · exact absurd (ih V beforeU afterT ruledV) absent

theorem committed_le_log
    (committed : Committed term h acked T log) (U : Nat) (onward : T ≤ U) (ruled : h.leader U ≠ none) :
    log <+: h.log U := by
  rcases onward.eq_or_lt with rfl | after
  · exact committed.2.1
  · exact (sound.committed_le_base elections committed U after ruled).trans (sound.base_le U)

theorem committed_total {U : Nat}
    (left : Committed term h acked T first) (right : Committed term h acked U second) :
    first <+: second ∨ second <+: first := by
  have shared : ∃ V, first <+: h.log V ∧ second <+: h.log V := by
    rcases le_total T U with onward | onward
    · exact ⟨U, sound.committed_le_log elections left U onward right.1, right.2.1⟩
    · exact ⟨T, left.2.1, sound.committed_le_log elections right T onward left.1⟩
  rcases shared with ⟨V, inFirst, inSecond⟩
  exact prefix_or_prefix_of_prefix inFirst inSecond

end

end Reigns.Sound

end Commits

/-- A node that takes over the log of a leader keeps what it has acknowledged, or the leader had
lost it. -/
theorem kept_or_lost (sound : h.Sound term) {T V : Nat} {held taken after : List Entry}
    (holds : held <+: log) (acknowledged : held <+: h.log T) (onward : T ≤ V)
    (ruled : h.leader V ≠ none) (offered : taken <+: h.log V)
    (takes : taken <+: log ∧ after = log ∨ ¬ taken <+: log ∧ after = taken) :
    held <+: after ∨ Lost h T (V + 1) held := by
  by_cases known : held <+: h.log V
  · left
    rcases takes with ⟨_, rfl⟩ | ⟨new, rfl⟩
    · exact holds
    · rcases prefix_or_prefix_of_prefix known offered with shorter | longer
      · exact shorter
      · exact absurd (longer.trans holds) new
  · right
    have different : T ≠ V := fun same => known (same ▸ acknowledged)
    refine ⟨V, onward.lt_of_ne different, V.lt_succ_self, ruled, fun started => known ?_⟩
    exact started.trans (sound.base_le V)

end KairosFlux.Lib
