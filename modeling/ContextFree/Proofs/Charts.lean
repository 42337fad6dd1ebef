import ContextFree.Parse
import ContextFree.Proofs.Closing

/-!
# Positions of a chart

A finished chart has one position more than the input has tokens, and every position was built
over its seeds with the positions to its right as they stand in the chart. So a statement about
one position in terms of the later ones is a statement about every position of the chart.
-/
namespace ContextFree

namespace Position

variable {g : Grammar} {limit position : ℕ} {later : List Position} {seeds : List Item}
  {here : Position}

/-- What a position reports once it is done: its items, then whether it was cut, then its size. -/
def reports (limit position : ℕ) (here : Position) : List ChartEvent :=
  here.items.map .added ++ cutReport limit position (.ok here.cut) ++
    [.done position here.items.length]

/-- At the start nothing is found and nothing is reported. -/
lemma reports_start : (#[] : Array ChartEvent).toList =
    (OrderedSet.empty : OrderedSet Item).toList.map .added := rfl

/-- A position that is closed without a fault has reported everything about itself. -/
theorem build_of_close {items : OrderedSet Item} {cut : Bool}
    (hclose : close g limit later position .empty #[] (.ofList seeds) = (items, .ok cut)) :
    build g limit later position seeds =
      ⟨reports limit position ⟨items.toList, cut⟩, .ok ⟨items.toList, cut⟩⟩ := by
  rw [build, grow_eq reports_start, hclose, reports, OrderedSet.length_toList]
  rfl

/-- A position that faults has reported its items before. -/
theorem build_of_fault {items : OrderedSet Item} {fault : Fault}
    (hclose : close g limit later position .empty #[] (.ofList seeds) = (items, .error fault)) :
    build g limit later position seeds = ⟨items.toList.map .added, .error fault⟩ := by
  rw [build, grow_eq reports_start, hclose, cutReport, List.append_nil]
  · rfl
  · simp

theorem outcome_build (g : Grammar) (limit : ℕ) (later : List Position) (position : ℕ)
    (seeds : List Item) :
    (build g limit later position seeds).outcome =
      (close g limit later position .empty #[] (.ofList seeds)).2.map fun cut =>
        ⟨(close g limit later position .empty #[] (.ofList seeds)).1.toList, cut⟩ := by
  cases hclose : close g limit later position .empty #[] (.ofList seeds) with
  | mk items outcome =>
    cases outcome with
    | error fault => rw [build_of_fault hclose]; rfl
    | ok cut => rw [build_of_close hclose]; rfl

lemma close_of_build (h : (build g limit later position seeds).outcome = .ok here) :
    ∃ items, here.items = items.toList ∧
      close g limit later position .empty #[] (.ofList seeds) = (items, .ok here.cut) := by
  rw [outcome_build] at h
  obtain ⟨cut, hcut, rfl⟩ := map_eq_ok_iff.1 h
  exact ⟨_, rfl, Prod.ext rfl hcut⟩

/-- What is in the set when the loop ends, in whatever way, follows from the seeds. -/
lemma follows_of_close {items : OrderedSet Item} {outcome : Except Fault Bool}
    (hclose : close g limit later position .empty #[] (.ofList seeds) = (items, outcome)) :
    ∀ item ∈ items.toList, Follows g later position seeds item := by
  have hfollows : ∀ item ∈ (close g limit later position .empty #[] (.ofList seeds)).1.toList,
      Follows g later position seeds item :=
    follows_of_mem_close (by simpa using Tracked.start g later position seeds)
  rwa [hclose] at hfollows

theorem follows_of_build (h : (build g limit later position seeds).outcome = .ok here) :
    ∀ item ∈ here.items, Follows g later position seeds item := by
  obtain ⟨items, hitems, hclose⟩ := close_of_build h
  rw [hitems]
  exact follows_of_close hclose

theorem closed_of_build (h : (build g limit later position seeds).outcome = .ok here)
    (hcut : here.cut = false) :
    (∀ item ∈ seeds, item.In here.items) ∧ Closed g later position here.items := by
  obtain ⟨items, hitems, hclose⟩ := close_of_build h
  rw [hcut] at hclose
  have hclosed := closed_of_close (by simpa using Settled.start seeds) hclose
  rw [hitems]
  simpa using hclosed

theorem distinct_of_build (h : (build g limit later position seeds).outcome = .ok here) :
    here.items.Pairwise fun a b => a.dotted ≠ b.dotted := by
  obtain ⟨items, hitems, _⟩ := close_of_build h
  rw [hitems]
  refine items.distinct.imp fun {a b} hab heq => ?_
  rw [Item.beq_iff_dotted.2 heq] at hab
  cases hab

theorem lt_length_of_cut (h : (build g limit later position seeds).outcome = .ok here)
    (hcut : here.cut = true) : limit < here.items.length := by
  obtain ⟨items, hitems, hclose⟩ := close_of_build h
  rw [hcut] at hclose
  rw [hitems, OrderedSet.length_toList]
  exact lt_size_of_close hclose

theorem exists_faults_of_build {fault : Fault}
    (h : (build g limit later position seeds).outcome = .error fault) :
    ∃ item, Follows g later position seeds item ∧ Faults g item fault := by
  rw [outcome_build] at h
  cases hclose : close g limit later position .empty #[] (.ofList seeds) with
  | mk items outcome =>
    rw [hclose] at h
    cases outcome with
    | ok cut => cases h
    | error fault' =>
      obtain rfl : fault' = fault := Except.error.inj h
      obtain ⟨item, hitem, hfaults⟩ := exists_faults_of_close hclose
      exact ⟨item, follows_of_close hclose item hitem, hfaults⟩

/-- The items at a position of a chart. -/
def itemsIn (chart : List Position) (position : ℕ) : List Item :=
  (chart[position]?.map items).getD []

lemma itemsIn_of_getElem? {chart : List Position} (h : chart[position]? = some here) :
    itemsIn chart position = here.items := by
  simp [itemsIn, h]

/-- Positions to the right of a position are looked up as in the whole chart. -/
lemma itemsAt_drop (chart : List Position) {finish : ℕ} (h : position < finish) :
    itemsAt (chart.drop (position + 1)) position finish = itemsIn chart finish := by
  have hindex : position + 1 + (finish - (position + 1)) = finish := by omega
  rw [itemsAt, List.getElem?_drop, hindex, itemsIn]

end Position

/-- The seeds of the position in front of the given tokens. -/
def Grammar.seeds (g : Grammar) (start : Symbol) (position : ℕ) (tokens : List (Option Symbol))
    (later : List Position) : List Item :=
  match tokens with
  | [] => [g.rootItem start position]
  | token :: _ => Position.scan g token later

namespace Position

/-- The positions of a chart from some position of the input on. Each of them was built over its
seeds with the positions to its right. -/
inductive Charts (g : Grammar) (limit : ℕ) (start : Symbol) (tokens : List (Option Symbol)) :
    (base : ℕ) → List Position → Prop
  | nil : Charts g limit start tokens (tokens.length + 1) []
  | cons {position : ℕ} {here : Position} {later : List Position}
      (hle : position ≤ tokens.length) (rest : Charts g limit start tokens (position + 1) later)
      (built : (build g limit later position
        (g.seeds start position (tokens.drop position) later)).outcome = .ok here) :
      Charts g limit start tokens position (here :: later)

/-- A position that cannot be built, with the positions to its right. -/
structure Stuck (g : Grammar) (limit : ℕ) (start : Symbol) (tokens : List (Option Symbol))
    (fault : Fault) (position : ℕ) (later : List Position) : Prop where
  position_le : position ≤ tokens.length
  rest : Charts g limit start tokens (position + 1) later
  fault : (build g limit later position
    (g.seeds start position (tokens.drop position) later)).outcome = .error fault

variable {g : Grammar} {limit base : ℕ} {start : Symbol} {tokens rest : List (Option Symbol)}
  {last : Position} {chart : List Position}

lemma charts_last (hlast : (build g limit [] tokens.length
      [g.rootItem start tokens.length]).outcome = .ok last) :
    Charts g limit start tokens tokens.length [last] := by
  refine .cons (Nat.le_refl _) .nil ?_
  rw [List.drop_length]
  exact hlast

/-- The positions to the right of a token come first, then the one in front of it. -/
lemma outcome_foldrM_of_lt (start : Symbol) (hlt : base < tokens.length) :
    (((tokens.drop base).zipIdx base).foldrM (prepend g limit) [last]).outcome =
      (((tokens.drop (base + 1)).zipIdx (base + 1)).foldrM (prepend g limit) [last]).outcome >>=
        fun later => (build g limit later base
          (g.seeds start base (tokens.drop base) later)).outcome >>= fun here =>
            .ok (here :: later) := by
  rw [List.drop_eq_getElem_cons hlt, List.zipIdx_cons, List.foldrM_cons, Logged.outcome_bind]
  congr 1
  funext later
  rw [prepend, Logged.outcome_bind]
  rfl

/-- Building positions from the right, one for each token, gives a chart. -/
lemma charts_of_foldrM (hlast : Charts g limit start tokens tokens.length [last])
    (hbase : base ≤ tokens.length)
    (h : (((tokens.drop base).zipIdx base).foldrM (prepend g limit) [last]).outcome = .ok chart) :
    Charts g limit start tokens base chart := by
  induction hdistance : tokens.length - base generalizing base chart with
  | zero =>
    obtain rfl : base = tokens.length := by omega
    rw [List.drop_length] at h
    obtain rfl : [last] = chart := Except.ok.inj h
    exact hlast
  | succ distance ih =>
    have hlt : base < tokens.length := by omega
    rw [outcome_foldrM_of_lt start hlt] at h
    obtain ⟨later, hlater, h⟩ := bind_eq_ok_iff.1 h
    obtain ⟨here, hhere, h⟩ := bind_eq_ok_iff.1 h
    obtain rfl : here :: later = chart := Except.ok.inj h
    exact .cons hbase (ih hlt hlater (by omega)) hhere

/-- Building positions from the right comes to a fault at one of them. -/
lemma stuck_of_foldrM {fault : Fault} (hlast : Charts g limit start tokens tokens.length [last])
    (hbase : base ≤ tokens.length)
    (h : (((tokens.drop base).zipIdx base).foldrM (prepend g limit) [last]).outcome =
      .error fault) : ∃ position later, Stuck g limit start tokens fault position later := by
  induction hdistance : tokens.length - base generalizing base with
  | zero =>
    obtain rfl : base = tokens.length := by omega
    rw [List.drop_length] at h
    cases h
  | succ distance ih =>
    have hlt : base < tokens.length := by omega
    rw [outcome_foldrM_of_lt start hlt] at h
    rcases bind_eq_error_iff.1 h with hfault | ⟨later, hlater, h⟩
    · exact ih hlt hfault (by omega)
    · rcases bind_eq_error_iff.1 h with hfault | ⟨here, _, h⟩
      · exact ⟨base, later, hbase, charts_of_foldrM hlast hlt hlater, hfault⟩
      · cases h

end Position

section Chart

open Position

variable {g : Grammar} {limit : ℕ} {start : Symbol} {tokens : List (Option Symbol)}

theorem Grammar.charts_of_chart {chart : List Position}
    (h : (g.chart limit start tokens).outcome = .ok chart) :
    Charts g limit start tokens 0 chart := by
  rw [Grammar.chart, Logged.outcome_bind] at h
  obtain ⟨last, hlast, h⟩ := bind_eq_ok_iff.1 h
  exact charts_of_foldrM (charts_last hlast) (Nat.zero_le _) h

theorem Grammar.stuck_of_chart {fault : Fault}
    (h : (g.chart limit start tokens).outcome = .error fault) :
    ∃ position later, Stuck g limit start tokens fault position later := by
  rw [Grammar.chart, Logged.outcome_bind] at h
  rcases bind_eq_error_iff.1 h with hfault | ⟨last, hlast, h⟩
  · refine ⟨tokens.length, [], Nat.le_refl _, .nil, ?_⟩
    rw [List.drop_length]
    exact hfault
  · exact stuck_of_foldrM (charts_last hlast) (Nat.zero_le _) h

end Chart

namespace Position

variable {g : Grammar} {limit base position : ℕ} {start : Symbol}
  {tokens : List (Option Symbol)} {chart later : List Position} {item : Item}

lemma Charts.length_eq (h : Charts g limit start tokens base chart) :
    base + chart.length = tokens.length + 1 := by
  induction h with
  | nil => rfl
  | cons _ _ _ ih =>
    rw [List.length_cons]
    omega

lemma Charts.built_from (h : Charts g limit start tokens base chart) (hbase : base ≤ position)
    (hle : position ≤ tokens.length) :
    ∃ here, chart[position - base]? = some here ∧
      (build g limit (chart.drop (position - base + 1)) position
        (g.seeds start position (tokens.drop position)
          (chart.drop (position - base + 1)))).outcome = .ok here := by
  induction h with
  | nil => omega
  | @cons first here later _ _ built ih =>
    rcases Nat.eq_or_lt_of_le hbase with rfl | hlt
    · rw [Nat.sub_self]
      exact ⟨here, rfl, built⟩
    · have hindex : position - first = position - (first + 1) + 1 := by omega
      rw [hindex]
      exact ih hlt

lemma Charts.built_at (h : Charts g limit start tokens 0 chart) (hle : position ≤ tokens.length) :
    ∃ here, chart[position]? = some here ∧
      (build g limit (chart.drop (position + 1)) position
        (g.seeds start position (tokens.drop position) (chart.drop (position + 1)))).outcome =
          .ok here :=
  h.built_from (Nat.zero_le position) hle

lemma mem_scan (position : ℕ) {token : Option Symbol} :
    item ∈ scan g token later ↔
      ∃ symbol, token = some symbol ∧ symbol ∉ g.nonterminals ∧
        ∃ parent ∈ itemsAt later position (position + 1),
          parent.advance? (g.leaf symbol) = some item := by
  rw [itemsAt, Nat.sub_self, ← List.head?_eq_getElem?]
  cases token with
  | none => simp [scan]
  | some symbol =>
    cases later with
    | nil => simp [scan]
    | cons next later => by_cases hterminal : symbol ∈ g.nonterminals <;> simp [scan, hterminal]

/-- The last position is seeded with the root item, any other one with the items to its right
that are moved over the terminal between. -/
theorem mem_seeds (hle : position ≤ tokens.length) :
    item ∈ g.seeds start position (tokens.drop position) later ↔
      position = tokens.length ∧ item = g.rootItem start position ∨
        ∃ symbol, tokens[position]? = some (some symbol) ∧ symbol ∉ g.nonterminals ∧
          ∃ parent ∈ itemsAt later position (position + 1),
            parent.advance? (g.leaf symbol) = some item := by
  rcases Nat.eq_or_lt_of_le hle with heq | hlt
  · rw [List.drop_of_length_le (Nat.le_of_eq heq.symm), List.getElem?_eq_none (by omega)]
    simp [Grammar.seeds, heq]
  · rw [List.drop_eq_getElem_cons hlt, List.getElem?_eq_getElem hlt, Grammar.seeds,
      mem_scan position]
    have hne : position ≠ tokens.length := Nat.ne_of_lt hlt
    simp [hne]

end Position

end ContextFree
