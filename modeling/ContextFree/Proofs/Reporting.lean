import ContextFree.Grammar.Text
import ContextFree.Proofs.Parsing

/-!
# What a parse reports

Closing a position may queue more than it draws, and for some grammars there is always more to
add. The loop ends all the same: a draw either uses up what waits or takes one of the places that
the limit leaves, and a place is taken for good. A position has at most one item more than the
limit, so the draws are bounded as well, by the places and by what one item can queue.

The reports of a parse are those of its positions, the last one first. A position reports its
items, then whether it was cut, then its size.
-/
namespace ContextFree

/-! ### The draws of a position -/

namespace Grammar

variable {g : Grammar}

lemma exists_start (h : g.productions ≠ []) : ∃ start, g.start? = some start := by
  obtain ⟨production, hproduction⟩ := List.exists_mem_of_ne_nil _ h
  have hlhs := lhs_mem_nonterminals hproduction
  rw [start?]
  cases hnonterminals : g.nonterminals with
  | nil => simp [hnonterminals] at hlhs
  | cons start rest => exact ⟨start, rfl⟩

lemma length_alternatives_le (g : Grammar) (symbol : Symbol) :
    (g.alternatives symbol).length ≤ g.productions.length := by
  cases h : g.alternatives? symbol with
  | none => simp [alternatives, h]
  | some rhss =>
    obtain ⟨rule, hrule, _, rfl⟩ := Grammar.alternatives?_eq_some_iff.1 h
    have hsublist : rule.productions.Sublist g.productions := by
      rw [productions, List.flatMap_def]
      exact List.sublist_flatten_of_mem (List.mem_map_of_mem hrule)
    simpa [alternatives, h, Rule.productions] using hsublist.length_le

end Grammar

namespace Position

variable {g : Grammar} {limit position base : ℕ} {start : Symbol} {tokens : List (Option Symbol)}
  {later chart : List Position} {seeds : List Item} {here : Position}

/-- An item drawn from the queue, and the number of items in the set at that moment. -/
structure Draw where
  item : Item
  size : ℕ

/-- The loop that closes a position, draw by draw: from the items found so far, the trees of the
empty word among them and the items that wait, to the items found in the end. The flag tells
whether the set was cut. -/
inductive Loop (g : Grammar) (limit : ℕ) (later : List Position) (position : ℕ) :
    (items : List Item) → (empties : List Tree) → (queue : List Item) → (draws : List Draw) →
      (result : List Item) → (cut : Bool) → Prop
  | done (items : List Item) (empties : List Tree) :
      Loop g limit later position items empties [] [] items false
  /-- Nothing is added any more once the set exceeds the limit. -/
  | full {items queue : List Item} {empties : List Tree} {item : Item}
      (hfull : limit < items.length) :
      Loop g limit later position items empties (item :: queue) [⟨item, items.length⟩] items true
  /-- An item that is there already is dropped. -/
  | known {items queue result : List Item} {empties : List Tree} {item : Item}
      {draws : List Draw} {cut : Bool} (hroom : items.length ≤ limit) (hknown : item.In items)
      (rest : Loop g limit later position items empties queue draws result cut) :
      Loop g limit later position items empties (item :: queue) (⟨item, items.length⟩ :: draws)
        result cut
  /-- A new item is added, and what it leads to waits behind all others. -/
  | new {items queue following result : List Item} {empties : List Tree} {item : Item}
      {found : Option Tree} {draws : List Draw} {cut : Bool} (hroom : items.length ≤ limit)
      (hnew : ¬item.In items)
      (hleads : Leads g later position (items ++ [item]) empties item found following)
      (rest : Loop g limit later position (items ++ [item]) (empties ++ found.toList)
        (queue ++ following) draws result cut) :
      Loop g limit later position items empties (item :: queue) (⟨item, items.length⟩ :: draws)
        result cut

/-- A position that is closed without a fault is closed in finitely many draws. -/
theorem exists_loop {items result : OrderedSet Item} {empties : Array Tree} {queue : Queue Item}
    {cut : Bool} (hclose : close g limit later position items empties queue = (result, .ok cut)) :
    ∃ draws, Loop g limit later position items.toList empties.toList queue.toList draws
      result.toList cut := by
  fun_induction close g limit later position items empties queue with
  | case1 items empties queue hdraw =>
    obtain ⟨rfl, hcut⟩ := Prod.mk.inj hclose
    rw [Queue.draw?_eq_none_iff.1 hdraw, ← Except.ok.inj hcut]
    exact ⟨[], .done items.toList empties.toList⟩
  | case2 items empties queue item rest hdraw _ hroom hknown ih =>
    obtain ⟨draws, hloop⟩ := ih hclose
    rw [Queue.toList_of_draw? hdraw]
    exact ⟨_, .known hroom (Item.contains_iff_in.1 hknown) hloop⟩
  | case3 => cases (Prod.mk.inj hclose).2
  | case4 items empties queue item rest hdraw _ hroom hnew _ found following hconsequences ih =>
    obtain ⟨draws, hloop⟩ := ih hclose
    have hleads := leads_of_consequences hconsequences
    rw [toList_insert_of_new hnew] at hleads hloop
    rw [toList_elim_push, Queue.toList_append] at hloop
    rw [Queue.toList_of_draw? hdraw]
    exact ⟨_, .new hroom (fun hin => hnew (Item.contains_iff_in.2 hin)) hleads hloop⟩
  | case5 items empties queue item rest hdraw _ hfull =>
    obtain ⟨rfl, hcut⟩ := Prod.mk.inj hclose
    rw [Queue.toList_of_draw? hdraw, ← Except.ok.inj hcut]
    exact ⟨_, .full (Nat.lt_of_not_le hfull)⟩

namespace Loop

variable {items queue result : List Item} {empties : List Tree} {draws : List Draw} {cut : Bool}

/-- The set exceeds the limit by one item at most. -/
theorem length_le (h : Loop g limit later position items empties queue draws result cut)
    (hitems : items.length ≤ limit + 1) : result.length ≤ limit + 1 := by
  induction h with
  | done => exact hitems
  | full => exact hitems
  | known _ _ _ ih => exact ih hitems
  | new hroom _ _ _ ih =>
    apply ih
    simpa using hroom

/-- A set is cut when an item is drawn although the limit is exceeded. -/
theorem cut_iff (h : Loop g limit later position items empties queue draws result cut)
    (hitems : items.length ≤ limit + 1) : cut = true ↔ ∃ draw ∈ draws, draw.size = limit + 1 := by
  induction h with
  | done => simp
  | full hfull =>
    have hsize := Nat.le_antisymm hitems hfull
    simp [hsize]
  | known hroom _ _ ih =>
    rw [ih hitems, List.exists_mem_cons_iff]
    have hsize := Nat.ne_of_lt (Nat.lt_succ_of_le hroom)
    simp [hsize]
  | new hroom _ _ _ ih =>
    rw [ih (by simpa using hroom), List.exists_mem_cons_iff]
    have hsize := Nat.ne_of_lt (Nat.lt_succ_of_le hroom)
    simp [hsize]

/-- What an item leads to is bounded by the productions and the sizes of positions. -/
lemma length_following_le {item : Item} {found : Option Tree} {following : List Item}
    (h : Leads g later position items empties item found following)
    (hitems : items.length ≤ limit + 1) (hempties : empties.length ≤ limit)
    (hlater : ∀ finish, (itemsAt later position finish).length ≤ limit + 1) :
    following.length ≤ g.productions.length + limit + 1 := by
  cases h with
  | unfinished next pending hpending =>
    have halternatives := g.length_alternatives_le next
    have hmoved := List.length_filterMap_le item.advance? empties
    rw [List.length_append, Grammar.predictions, List.length_map]
    omega
  | root => simp
  | finished tree hcompletes =>
    have hstanding : (standing later position items item.finish).length ≤ limit + 1 := by
      unfold standing
      split
      · exact hitems
      · exact hlater item.finish
    have hmoved := List.length_filterMap_le (fun parent => parent.advance? tree)
      (standing later position items item.finish)
    omega

/-- Every draw takes something from the queue that waited at the start or came with an item when it
was added. -/
lemma length_draws_le (h : Loop g limit later position items empties queue draws result cut)
    (hempties : empties.length ≤ items.length)
    (hlater : ∀ finish, (itemsAt later position finish).length ≤ limit + 1) :
    draws.length + (g.productions.length + limit + 1) * items.length ≤
      queue.length + (g.productions.length + limit + 1) * result.length := by
  induction h with
  | done => exact le_rfl
  | full => simp
  | known _ _ _ ih =>
    have hrest := ih hempties
    rw [List.length_cons, List.length_cons]
    omega
  | @new items queue following result empties item found draws cut hroom _ hleads _ ih =>
    -- the place that the item takes pays for this draw and for all that it leads to
    have hfound : found.toList.length ≤ 1 := by cases found <;> simp
    have hfollowing := length_following_le hleads (by simpa using hroom) (hempties.trans hroom)
      hlater
    have hrest := ih (by simp only [List.length_append, List.length_singleton]; omega)
    rw [List.length_append, List.length_singleton, List.length_append, Nat.mul_succ] at hrest
    rw [List.length_cons, List.length_cons]
    omega

end Loop

theorem length_le_of_build (h : (build g limit later position seeds).outcome = .ok here) :
    here.items.length ≤ limit + 1 := by
  obtain ⟨items, hitems, hclose⟩ := close_of_build h
  obtain ⟨draws, hloop⟩ := exists_loop hclose
  rw [hitems]
  exact hloop.length_le (Nat.zero_le (limit + 1))

lemma Charts.length_le (h : Charts g limit start tokens base chart) :
    ∀ here ∈ chart, here.items.length ≤ limit + 1 := by
  induction h with
  | nil => simp
  | cons _ _ built ih => exact List.forall_mem_cons.2 ⟨length_le_of_build built, ih⟩

lemma length_itemsAt_le (hlater : ∀ next ∈ later, next.items.length ≤ limit + 1) (finish : ℕ) :
    (itemsAt later position finish).length ≤ limit + 1 := by
  unfold itemsAt
  cases hnext : later[finish - (position + 1)]? with
  | none => simp
  | some next => exact hlater next (List.mem_of_getElem? hnext)

lemma length_seeds_le (g : Grammar) (start : Symbol) (position : ℕ)
    (hlater : ∀ next ∈ later, next.items.length ≤ limit + 1) (rest : List (Option Symbol)) :
    (g.seeds start position rest later).length ≤ limit + 1 := by
  cases rest with
  | nil => simp [Grammar.seeds]
  | cons token rest =>
    rw [Grammar.seeds]
    unfold scan
    split
    · next symbol next later =>
      split
      · simp
      · exact (List.length_filterMap_le _ next.items).trans (hlater next List.mem_cons_self)
    · simp

lemma Charts.outcome_at (h : Charts g limit start tokens 0 chart)
    (hhere : chart[position]? = some here) :
    (build g limit (chart.drop (position + 1)) position
      (g.seeds start position (tokens.drop position) (chart.drop (position + 1)))).outcome =
        .ok here := by
  have hlt := (List.getElem?_eq_some_iff.1 hhere).1
  have hlength := h.length_eq
  have hle : position ≤ tokens.length := by omega
  obtain ⟨built, hbuilt, houtcome⟩ := h.built_at hle
  rwa [Option.some.inj (hbuilt.symm.trans hhere)] at houtcome

lemma Charts.pairwise_at (h : Charts g limit start tokens 0 chart)
    (hhere : chart[position]? = some here) :
    here.items.Pairwise fun a b => (a == b) = false := by
  obtain ⟨items, hitems, _⟩ := close_of_build (h.outcome_at hhere)
  rw [hitems]
  exact items.distinct

/-- Every position of a chart was closed in finitely many draws, and their number is bounded. -/
theorem Charts.exists_loop_at (h : Charts g limit start tokens 0 chart)
    (hhere : chart[position]? = some here) :
    ∃ draws, Loop g limit (chart.drop (position + 1)) position [] []
        (g.seeds start position (tokens.drop position) (chart.drop (position + 1))) draws here.items
        here.cut ∧
      draws.length ≤ (limit + 1) * (g.productions.length + limit + 2) := by
  have houtcome := h.outcome_at hhere
  obtain ⟨items, hitems, hclose⟩ := close_of_build houtcome
  obtain ⟨draws, hloop⟩ := exists_loop hclose
  rw [Queue.toList_ofList, ← hitems] at hloop
  refine ⟨draws, hloop, ?_⟩
  have hlater : ∀ next ∈ chart.drop (position + 1), next.items.length ≤ limit + 1 :=
    fun next hnext => h.length_le next (List.mem_of_mem_drop hnext)
  have hdraws := hloop.length_draws_le le_rfl (length_itemsAt_le hlater)
  have hseeds := length_seeds_le g start position hlater (tokens.drop position)
  have hplaces : (g.productions.length + limit + 1) * here.items.length ≤
      (g.productions.length + limit + 1) * (limit + 1) :=
    Nat.mul_le_mul_left _ (length_le_of_build houtcome)
  calc draws.length
      ≤ (limit + 1) + (g.productions.length + limit + 1) * (limit + 1) := by
        simp only [List.length_nil, OrderedSet.toList_empty, Nat.mul_zero] at hdraws
        omega
    _ = (limit + 1) * (g.productions.length + limit + 2) := by ring

end Position

/-! ### Reports -/

/-- The line of a report: how important it is, and its wording. -/
def ChartEvent.line (g : Grammar) (event : ChartEvent) : Level × String :=
  (event.level, event.message g)

namespace Position

variable {g : Grammar} {limit position base : ℕ} {later chart : List Position}
  {seeds : List Item} {here : Position}

/-- The lines that a position leaves in the log: one for each item, a warning if it was cut, and
its size. -/
def lines (g : Grammar) (limit position : ℕ) (here : Position) : List (Level × String) :=
  here.items.map (fun item => (.trace, item.text g)) ++
    (if here.cut then
      [(.warn, s!"position {position} exceeds {limit} items; derivations are truncated")]
    else []) ++
    [(.debug, s!"position {position}: {here.items.length} items")]

lemma map_line_reports (g : Grammar) (limit position : ℕ) (here : Position) :
    (here.reports limit position).map (ChartEvent.line g) = here.lines g limit position := by
  unfold reports lines
  rw [List.map_append, List.map_append, List.map_map]
  cases here.cut with
  | false => rfl
  | true => rfl

lemma exists_warning_iff :
    (∃ text, (Level.warn, text) ∈ here.lines g limit position) ↔ here.cut = true := by
  unfold lines
  cases here.cut with
  | false => simp
  | true => simp

/-- There is a warning just when some position was cut. -/
lemma exists_warning_chart_iff :
    (∃ text, (Level.warn, text) ∈
      chart.zipIdx.reverse.flatMap fun entry => entry.1.lines g limit entry.2) ↔
      chart.any Position.cut = true := by
  simp only [List.mem_flatMap, List.mem_reverse, List.any_eq_true]
  constructor
  · intro ⟨text, entry, hentry, htext⟩
    exact ⟨entry.1, List.fst_mem_of_mem_zipIdx hentry, exists_warning_iff.1 ⟨text, htext⟩⟩
  · intro ⟨here, hhere, hcut⟩
    obtain ⟨position, hposition⟩ := List.mem_iff_getElem?.1 hhere
    have hwarning : ∃ text, (Level.warn, text) ∈ here.lines g limit position :=
      exists_warning_iff.2 hcut
    obtain ⟨text, htext⟩ := hwarning
    exact ⟨text, (here, position), List.mk_mem_zipIdx_iff_getElem?.2 hposition, htext⟩

lemma log_build (h : (build g limit later position seeds).outcome = .ok here) :
    (build g limit later position seeds).log = here.reports limit position := by
  obtain ⟨items, hitems, hclose⟩ := close_of_build h
  rw [build_of_close hclose, ← hitems]

lemma build_of_prepend {token : Option Symbol × ℕ}
    (h : (prepend g limit token later).outcome = .ok chart) :
    ∃ here, (build g limit later token.2 (scan g token.1 later)).outcome = .ok here ∧
      chart = here :: later := by
  rw [prepend, Logged.outcome_bind] at h
  obtain ⟨here, hhere, h⟩ := bind_eq_ok_iff.1 h
  exact ⟨here, hhere, (Except.ok.inj h).symm⟩

/-- Positions report from right to left. -/
lemma log_foldrM {last : Position} (tokens : List (Option Symbol))
    (h : ((tokens.zipIdx base).foldrM (prepend g limit) [last]).outcome = .ok chart) :
    last.reports limit (base + tokens.length) ++
        ((tokens.zipIdx base).foldrM (prepend g limit) [last]).log =
      (chart.zipIdx base).reverse.flatMap fun entry => entry.1.reports limit entry.2 := by
  induction tokens generalizing base chart with
  | nil =>
    obtain rfl : [last] = chart := Except.ok.inj h
    simp
  | cons token tokens ih =>
    rw [List.zipIdx_cons, List.foldrM_cons, Logged.outcome_bind] at h
    obtain ⟨later, hlater, h⟩ := bind_eq_ok_iff.1 h
    obtain ⟨here, hhere, rfl⟩ := build_of_prepend h
    have hlog : (prepend g limit (token, base) later).log = here.reports limit base := by
      rw [prepend, Logged.bind_of_ok hhere, Logged.log_pure, List.append_nil, log_build hhere]
    have hbase : base + (token :: tokens).length = base + 1 + tokens.length := by
      rw [List.length_cons]
      omega
    rw [List.zipIdx_cons, List.foldrM_cons, Logged.bind_of_ok hlater, hlog, hbase,
      ← List.append_assoc, ih hlater, List.zipIdx_cons, List.reverse_cons, List.flatMap_append,
      List.flatMap_singleton]

end Position

namespace Grammar

open Position

variable {g : Grammar} {limit : ℕ} {start : Symbol} {tokens : List (Option Symbol)}
  {chart : List Position} {limits : ParseLimits} {parse : Parse}

theorem log_chart (h : (g.chart limit start tokens).outcome = .ok chart) :
    (g.chart limit start tokens).log =
      chart.zipIdx.reverse.flatMap fun entry => entry.1.reports limit entry.2 := by
  rw [Grammar.chart, Logged.outcome_bind] at h
  obtain ⟨last, hlast, h⟩ := bind_eq_ok_iff.1 h
  rw [Grammar.chart, Logged.bind_of_ok hlast, log_build hlast, ← log_foldrM tokens h, Nat.zero_add]

lemma log_parse (hstart : g.start? = some start)
    (h : (g.chart limits.stateSize start tokens).outcome = .ok chart) :
    (g.parse limits tokens).log = (g.chart limits.stateSize start tokens).log := by
  rw [Grammar.parse, hstart]
  simp only [Logged.bind_of_ok h]
  cases htrees : g.derivations chart with
  | error fault => rw [Logged.bind_of_error (Logged.outcome_liftM _), Logged.log_liftM,
      List.append_nil]
  | ok trees => rw [Logged.bind_of_ok (Logged.outcome_liftM _), Logged.log_liftM, Logged.log_pure,
      List.append_nil, List.append_nil]

/-- A parse goes through the positions of its input from right to left, and the log tells exactly
what happened there. Every position was closed in finitely many draws. It has pairwise different
items, at most one more than the limit, and it was cut just when an item was drawn while there was
one more than the limit. The log has a warning just when the parse is truncated. -/
theorem lines_of_parse (hrules : g.productions ≠ [])
    (hparse : (g.parse limits tokens).outcome = .ok parse) :
    ∃ start chart, g.start? = some start ∧
      (g.chart limits.stateSize start tokens).outcome = .ok chart ∧
      chart.length = tokens.length + 1 ∧
      (g.parse limits tokens).log.map (ChartEvent.line g) = chart.zipIdx.reverse.flatMap
        (fun entry => entry.1.lines g limits.stateSize entry.2) ∧
      (∀ position here, chart[position]? = some here →
        (∃ draws,
          Loop g limits.stateSize (chart.drop (position + 1)) position [] []
            (g.seeds start position (tokens.drop position) (chart.drop (position + 1))) draws
            here.items here.cut ∧
          draws.length ≤
            (limits.stateSize + 1) * (g.productions.length + limits.stateSize + 2) ∧
          (here.cut = true ↔ ∃ draw ∈ draws, draw.size = limits.stateSize + 1)) ∧
        here.items.length ≤ limits.stateSize + 1 ∧
        here.items.Pairwise (fun a b => (a == b) = false)) ∧
      (parse.truncated = true ↔
        ∃ text, (.warn, text) ∈ (g.parse limits tokens).log.map (ChartEvent.line g)) := by
  obtain ⟨start, hstart⟩ := exists_start hrules
  obtain ⟨chart, hchart, _, htruncated⟩ := (parse_eq_ok_iff hstart).1 hparse
  have hcharts := charts_of_chart hchart
  have hlength := hcharts.length_eq
  have hlines : (g.parse limits tokens).log.map (ChartEvent.line g) =
      chart.zipIdx.reverse.flatMap fun entry => entry.1.lines g limits.stateSize entry.2 := by
    rw [log_parse hstart hchart, log_chart hchart, List.map_flatMap]
    exact List.flatMap_congr fun entry _ => map_line_reports g limits.stateSize entry.2 entry.1
  refine ⟨start, chart, hstart, hchart, by omega, hlines, fun position here hhere => ?_, ?_⟩
  · obtain ⟨draws, hloop, hdraws⟩ := hcharts.exists_loop_at hhere
    exact ⟨⟨draws, hloop, hdraws, hloop.cut_iff (Nat.zero_le _)⟩,
      hcharts.length_le here (List.mem_of_getElem? hhere), hcharts.pairwise_at hhere⟩
  · rw [htruncated, hlines, exists_warning_chart_iff]

/-- With a limit of two, both positions of a grammar that never runs out of items are cut when they
have three. -/
theorem lines_of_cut_selfLoop :
    selfLoop.productions ≠ [] ∧
      (selfLoop.parseNames ⟨2⟩ ["a"]).log.map (ChartEvent.line selfLoop) =
        [(.trace, "(<root> -> S ., 1)"), (.trace, "(S -> S ., 1)"), (.trace, "(S -> a ., 1)"),
          (.warn, "position 1 exceeds 2 items; derivations are truncated"),
          (.debug, "position 1: 3 items"), (.trace, "(S -> . a, 1)"),
          (.trace, "(<root> -> . S, 1)"), (.trace, "(S -> . S, 1)"),
          (.warn, "position 0 exceeds 2 items; derivations are truncated"),
          (.debug, "position 0: 3 items")] ∧
      ∃ parse, (selfLoop.parseNames ⟨2⟩ ["a"]).outcome = .ok parse ∧ parse.truncated = true ∧
        ∃ chart : List Position, chart.length = 2 ∧
          (selfLoop.parseNames ⟨2⟩ ["a"]).log.map (ChartEvent.line selfLoop) =
            chart.zipIdx.reverse.flatMap (fun entry => entry.1.lines selfLoop 2 entry.2) ∧
          ∀ here ∈ chart, here.items.length ≤ 3 := by
  have hrules : selfLoop.productions ≠ [] := by decide +kernel
  have hrun : (selfLoop.parseNames ⟨2⟩ ["a"]).outcome.map Parse.truncated = .ok true := by cbv
  obtain ⟨parse, hparse, htruncated⟩ := map_eq_ok_iff.1 hrun
  obtain ⟨start, chart, _, _, hlength, hlines, hpositions, _⟩ := lines_of_parse hrules hparse
  refine ⟨hrules, by cbv, parse, hparse, htruncated, chart, hlength, hlines, ?_⟩
  intro here hhere
  obtain ⟨position, hposition⟩ := List.mem_iff_getElem?.1 hhere
  exact (hpositions position here hposition).2.1

end Grammar

end ContextFree
