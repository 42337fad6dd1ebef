import ContextFree.Grammar.Text
import ContextFree.Proofs.Reporting

/-!
# The limit of a parse

A limit is looked at whenever an item is drawn, before it is known whether the item is new. So a
position that is not cut has at most one item more than the limit, and every limit that leaves
room for its items builds the same position. Hence one parse that is not cut decides for the
other limits: from its largest position on all parses are the same, reports included, and with a
limit smaller by two or more something is cut.

A parse with a smaller limit has an outcome as well. Its items are among those of the parse that
was not cut, so it comes to no tree that is too large to be measured.
-/
namespace ContextFree

namespace Position

variable {g : Grammar} {limit more position : ℕ} {later : List Position} {seeds : List Item}
  {here : Position}

section Close

variable {items result : OrderedSet Item} {empties : Array Tree} {queue : Queue Item}

lemma size_le_of_close {outcome : Except Fault Bool}
    (hclose : close g limit later position items empties queue = (result, outcome)) :
    items.size ≤ result.size := by
  fun_induction close g limit later position items empties queue with
  | case1 => exact (congrArg OrderedSet.size (Prod.mk.inj hclose).1).le
  | case2 items empties queue item rest hdraw _ _ _ ih => exact ih hclose
  | case3 items empties queue item rest hdraw _ _ hnew hinsert =>
    rw [← (Prod.mk.inj hclose).1, hinsert]
    omega
  | case4 items empties queue item rest hdraw _ _ hnew hinsert found following _ ih =>
    have hrest := ih hclose
    omega
  | case5 => exact (congrArg OrderedSet.size (Prod.mk.inj hclose).1).le

/-- A set that is not cut comes out the same for every limit that leaves room for it. -/
theorem close_of_room
    (hclose : close g limit later position items empties queue = (result, .ok false))
    (hmore : result.size ≤ more) :
    close g more later position items empties queue = (result, .ok false) := by
  have hroom := (size_le_of_close hclose).trans hmore
  fun_induction close g limit later position items empties queue with
  | case1 items empties queue hdraw =>
    rw [← hclose]
    exact close_of_empty hdraw
  | case2 items empties queue item rest hdraw _ _ hknown ih =>
    rw [close_of_known hdraw hroom hknown]
    exact ih hclose hroom
  | case3 => cases (Prod.mk.inj hclose).2
  | case4 items empties queue item rest hdraw _ _ hnew _ found following hconsequences ih =>
    rw [close_of_new hdraw hroom hnew hconsequences]
    exact ih hclose ((size_le_of_close hclose).trans hmore)
  | case5 => cases (Prod.mk.inj hclose).2

end Close

/-- A position that is not cut is built alike, reports included, for every limit that leaves room
for it. -/
theorem build_of_room (h : (build g limit later position seeds).outcome = .ok here)
    (huncut : here.cut = false) (hmore : here.items.length ≤ more) :
    build g more later position seeds = build g limit later position seeds := by
  obtain ⟨items, hitems, hclose⟩ := close_of_build h
  rw [huncut] at hclose
  rw [hitems, OrderedSet.length_toList] at hmore
  rw [build_of_close (close_of_room hclose hmore), build_of_close hclose]
  rfl

/-- Limits do not matter as long as nothing is cut. -/
lemma eq_of_uncut {other : ℕ} {there : Position}
    (h : (build g limit later position seeds).outcome = .ok here) (huncut : here.cut = false)
    (hthere : (build g other later position seeds).outcome = .ok there)
    (huncut' : there.cut = false) : here = there := by
  have hleft := build_of_room h huncut (le_max_left here.items.length there.items.length)
  have hright := build_of_room hthere huncut' (le_max_right here.items.length there.items.length)
  rw [← hleft, hright, hthere] at h
  exact (Except.ok.inj h).symm

variable {start : Symbol} {tokens : List (Option Symbol)} {base : ℕ} {chart : List Position}

lemma Charts.eq_of_uncut {other : ℕ} {chart' : List Position}
    (h : Charts g limit start tokens base chart) (huncut : ∀ here ∈ chart, here.cut = false)
    (h' : Charts g other start tokens base chart') (huncut' : ∀ here ∈ chart', here.cut = false) :
    chart = chart' := by
  induction h generalizing chart' with
  | nil =>
    cases h' with
    | nil => rfl
    | cons hle => omega
  | @cons position here later hle rest built ih =>
    cases h' with
    | nil => omega
    | @cons _ there later' _ rest' built' =>
      obtain ⟨hhere, hlater⟩ := List.forall_mem_cons.1 huncut
      obtain ⟨hthere, hlater'⟩ := List.forall_mem_cons.1 huncut'
      obtain rfl := ih hlater rest' hlater'
      rw [Position.eq_of_uncut built hhere built' hthere]

/-! ### Reports -/

lemma mem_of_foldrM {rest : List (Option Symbol × ℕ)} {last : Position}
    (h : (rest.foldrM (prepend g limit) [last]).outcome = .ok chart) : last ∈ chart := by
  induction rest generalizing chart with
  | nil =>
    obtain rfl : [last] = chart := Except.ok.inj h
    exact List.mem_singleton_self last
  | cons token rest ih =>
    rw [List.foldrM_cons, Logged.outcome_bind] at h
    obtain ⟨later, hlater, h⟩ := bind_eq_ok_iff.1 h
    obtain ⟨here, _, rfl⟩ := build_of_prepend h
    exact List.mem_cons_of_mem here (ih hlater)

/-- A row of positions without cuts is built alike for every limit that leaves room for them. -/
lemma foldrM_of_room {rest : List (Option Symbol × ℕ)} {last : Position}
    (h : (rest.foldrM (prepend g limit) [last]).outcome = .ok chart)
    (hchart : ∀ here ∈ chart, here.cut = false ∧ here.items.length ≤ more) :
    rest.foldrM (prepend g more) [last] = rest.foldrM (prepend g limit) [last] := by
  induction rest generalizing chart with
  | nil => rfl
  | cons token rest ih =>
    rw [List.foldrM_cons, Logged.outcome_bind] at h
    obtain ⟨later, hlater, h⟩ := bind_eq_ok_iff.1 h
    obtain ⟨here, hhere, rfl⟩ := build_of_prepend h
    obtain ⟨⟨huncut, hroom⟩, hrest⟩ := List.forall_mem_cons.1 hchart
    rw [List.foldrM_cons, List.foldrM_cons, ih hlater hrest]
    apply Logged.bind_congr hlater
    rw [prepend, prepend, build_of_room hhere huncut hroom]

end Position

namespace ChartEvent

/-- The size of a position that is reported to be done. -/
def size? : ChartEvent → Option ℕ
  | done _ size => some size
  | _ => none

def sizes (log : List ChartEvent) : List ℕ := log.filterMap size?

/-- The largest size of a position in a list of reports. -/
def largest (log : List ChartEvent) : ℕ := (sizes log).foldr max 0

lemma largest_le_iff {log : List ChartEvent} {bound : ℕ} :
    largest log ≤ bound ↔ ∀ size ∈ sizes log, size ≤ bound := by
  unfold largest
  induction sizes log with
  | nil => simp
  | cons size sizes ih => rw [List.foldr_cons, max_le_iff, ih, List.forall_mem_cons]

end ChartEvent

open ChartEvent Position

variable {g : Grammar} {limit more position : ℕ} {later : List Position} {seeds : List Item}
  {start : Symbol} {tokens : List (Option Symbol)} {chart : List Position}

lemma sizes_reports (here : Position) :
    (here.reports limit position).filterMap size? = [here.items.length] := by
  have hadded : (here.items.map added).filterMap size? = [] := by
    simp [size?, List.filterMap_map]
  unfold reports
  rw [List.filterMap_append, List.filterMap_append, hadded]
  cases here.cut with
  | false => rfl
  | true => rfl

namespace Grammar

lemma mem_sizes_chart_iff (h : (g.chart limit start tokens).outcome = .ok chart) {size : ℕ} :
    size ∈ sizes (g.chart limit start tokens).log ↔ ∃ here ∈ chart, here.items.length = size := by
  rw [sizes, log_chart h, List.filterMap_flatMap]
  simp only [sizes_reports, List.mem_flatMap, List.mem_reverse, List.mem_singleton]
  constructor
  · rintro ⟨entry, hentry, rfl⟩
    exact ⟨entry.1, List.fst_mem_of_mem_zipIdx hentry, rfl⟩
  · rintro ⟨here, hhere, rfl⟩
    obtain ⟨position, hposition⟩ := List.mem_iff_getElem?.1 hhere
    exact ⟨(here, position), List.mk_mem_zipIdx_iff_getElem?.2 hposition, rfl⟩

lemma largest_chart_le_iff (h : (g.chart limit start tokens).outcome = .ok chart) {bound : ℕ} :
    largest (g.chart limit start tokens).log ≤ bound ↔
      ∀ here ∈ chart, here.items.length ≤ bound := by
  rw [largest_le_iff]
  simp only [mem_sizes_chart_iff h, forall_exists_index, and_imp, forall_apply_eq_imp_iff₂]

/-- A chart without cuts is built alike for every limit that leaves room for its positions. -/
lemma chart_of_room (h : (g.chart limit start tokens).outcome = .ok chart)
    (hchart : ∀ here ∈ chart, here.cut = false ∧ here.items.length ≤ more) :
    g.chart more start tokens = g.chart limit start tokens := by
  rw [Grammar.chart, Logged.outcome_bind] at h
  obtain ⟨last, hlast, h⟩ := bind_eq_ok_iff.1 h
  obtain ⟨huncut, hroom⟩ := hchart last (mem_of_foldrM h)
  rw [Grammar.chart, Grammar.chart, build_of_room hlast huncut hroom]
  exact Logged.bind_congr hlast (foldrM_of_room h hchart)

end Grammar

/-! ### Parses with a smaller limit -/

/-- The view of an item at a position of a parse decides the item. -/
lemma Item.Fits.eq_of_dotted_eq {item other : Item} (h : item.Fits g start tokens position)
    (hother : other.Fits g start tokens position) (hdotted : item.dotted = other.dotted) :
    item = other := by
  obtain ⟨hlhs, hpending, hfinish, hmatched⟩ := Dotted.mk.inj hdotted
  have hparsed : item.parsed = other.parsed :=
    eq_of_map_eq (fun a ha b hb => (h.grown a ha).eq_of_shape_eq (hother.grown b hb)) hmatched
  cases item
  cases other
  simp_all

namespace Position

lemma dotted_of_advance? {item moved : Item} {tree : Tree} (h : item.advance? tree = some moved) :
    item.dotted = ⟨moved.lhs, tree.symbol :: moved.pending, moved.finish,
      item.parsed.map Tree.shape⟩ ∧
    moved.dotted = ⟨moved.lhs, moved.pending, moved.finish,
      tree.shape :: item.parsed.map Tree.shape⟩ := by
  obtain ⟨pending, hpending, hmoved⟩ := Item.advance?_eq_some_iff.1 h
  rw [hmoved, Item.dotted, hpending]
  exact ⟨rfl, rfl⟩

namespace Whole

lemma mem_of_holds (h : Whole g limit start tokens chart) {item : Item}
    (hfits : item.Fits g start tokens position) (hholds : Holds chart position item.dotted) :
    item ∈ itemsIn chart position := by
  obtain ⟨known, hknown, hdotted⟩ := List.mem_map.1 hholds
  rwa [← (h.charts.fits position known hknown).eq_of_dotted_eq hfits hdotted]

/-- The items of a chart without cuts are kept by the rules, so nothing else is ever added. -/
lemma kept (h : Whole g limit start tokens chart) : Kept g start tokens fun position item =>
    item.Fits g start tokens position ∧ item ∈ itemsIn chart position where
  position_le := fun ⟨hfits, _⟩ => hfits.position_le
  root := ⟨Item.fits_rootItem g start tokens,
    h.mem_of_holds (Item.fits_rootItem g start tokens) h.holds_root⟩
  scan := by
    intro position symbol item moved htoken hterminal ⟨hfits, hitem⟩ hmoved
    have hmovedFits := hfits.scan htoken hterminal hmoved
    obtain ⟨hbefore, hafter⟩ := dotted_of_advance? hmoved
    refine ⟨hmovedFits, h.mem_of_holds hmovedFits ?_⟩
    rw [hafter]
    apply h.holds_scan htoken hterminal
    exact hbefore ▸ List.mem_map_of_mem hitem
  predict := by
    intro position next pending rhs item hle ⟨_, hitem⟩ hpending hrhs
    have hpredictFits : (Item.predict next rhs position).Fits g start tokens position :=
      Item.fits_predict hle hrhs
    exact ⟨hpredictFits, h.mem_of_holds hpredictFits
      ((h.closed_at hle).2.predicted item hitem next pending hpending rhs hrhs)⟩
  complete := by
    intro position child parent moved tree ⟨hchildFits, hchild⟩ hcompletes ⟨hparentFits, hparent⟩
      hmoved
    have hmovedFits := hchildFits.complete hcompletes hparentFits hmoved
    obtain ⟨hbefore, hafter⟩ := dotted_of_advance? hmoved
    have hshape := Tree.shape_of_node hcompletes.tree
    have hsymbol : tree.symbol = child.lhs := by rw [← Tree.root_shape, hshape, Shape.root_node]
    refine ⟨hmovedFits, h.mem_of_holds hmovedFits ?_⟩
    rw [hafter, hshape]
    apply h.holds_complete hchildFits.position_le hchildFits.finish_le hcompletes.lhs
    · rw [← hcompletes.pending]
      exact List.mem_map_of_mem hchild
    · rw [← hsymbol, ← hbefore]
      exact List.mem_map_of_mem hparent

/-- Every other chart has its items from the one without cuts. -/
lemma mem_of_charts (h : Whole g limit start tokens chart) {other : ℕ} {chart' : List Position}
    (hcharts : Charts g other start tokens 0 chart') :
    ∀ item ∈ itemsIn chart' position, item ∈ itemsIn chart position :=
  fun item hitem => (h.kept.of_charts hcharts (Nat.zero_le position) item hitem).2

/-- No limit comes to a tree that is too large, since it would be completed in the chart without
cuts as well. -/
lemma not_stuck (h : Whole g limit start tokens chart) {other : ℕ} {fault : Fault} :
    ¬Stuck g other start tokens fault position later := by
  intro hstuck
  obtain ⟨item, hfollows, hfaults⟩ := exists_faults_of_build hstuck.fault
  have hlater : ∀ finish, position < finish → ∀ item ∈ itemsAt later position finish,
      item.Fits g start tokens finish ∧ item ∈ itemsIn chart finish :=
    fun finish hfinish => h.kept.of_charts hstuck.rest hfinish
  have hitem := (h.kept.of_follows hstuck.position_le hlater hfollows).2
  obtain ⟨tree, hcomplete, _⟩ := (h.closed_at hstuck.position_le).2.completed item hitem
    hfaults.pending hfaults.lhs
  rw [hfaults.tree] at hcomplete
  cases hcomplete

lemma exists_chart (h : Whole g limit start tokens chart) (other : ℕ) :
    ∃ chart', (g.chart other start tokens).outcome = .ok chart' := by
  cases hchart : (g.chart other start tokens).outcome with
  | ok chart' => exact ⟨chart', rfl⟩
  | error fault =>
    obtain ⟨position, later, hstuck⟩ := Grammar.stuck_of_chart hchart
    exact absurd hstuck h.not_stuck

lemma exists_derivations (h : Whole g limit start tokens chart) {other : ℕ}
    {chart' : List Position} (hcharts : Charts g other start tokens 0 chart') {trees : List Tree}
    (htrees : g.derivations chart = .ok trees) :
    ∃ trees', g.derivations chart' = .ok trees' := by
  rw [Grammar.derivations_eq] at htrees ⊢
  apply exists_mapM
  intro item hitem
  obtain ⟨hmem, hfinished⟩ := List.mem_filter.1 hitem
  obtain ⟨tree, _, htree⟩ := exists_mem_of_mapM htrees item
    (List.mem_filter.2 ⟨h.mem_of_charts hcharts item hmem, hfinished⟩)
  exact ⟨tree, htree⟩

/-- Something is cut when the limit is smaller than a position by two or more. -/
lemma any_cut_of_small (h : Whole g limit start tokens chart) {other : ℕ} {chart' : List Position}
    (hcharts : Charts g other start tokens 0 chart')
    (hsmall : ¬∀ here ∈ chart, here.items.length ≤ other + 1) : chart'.any Position.cut = true := by
  by_contra hcut
  have huncut := uncut_of_any (Bool.eq_false_of_not_eq_true hcut)
  obtain rfl := h.charts.eq_of_uncut h.uncut hcharts huncut
  exact hsmall hcharts.length_le

end Whole

end Position

namespace Grammar

/-- A parse that is not cut says what every other limit does. From the size of its largest
position on, the parse is the same. When the limit is smaller by two or more, there is a parse
which is cut. -/
theorem parse_of_stateSize {limits : ParseLimits} {parse : Parse}
    (hparse : (g.parse limits tokens).outcome = .ok parse) (hcomplete : parse.truncated = false)
    (other : ParseLimits) :
    (largest (g.parse limits tokens).log ≤ other.stateSize →
      g.parse other tokens = g.parse limits tokens) ∧
    (other.stateSize + 2 ≤ largest (g.parse limits tokens).log →
      ∃ cut, (g.parse other tokens).outcome = .ok cut ∧ cut.truncated = true) := by
  cases hstart : g.start? with
  | none =>
    have hlog : (g.parse limits tokens).log = [] := by
      rw [Grammar.parse, hstart]
      rfl
    rw [hlog]
    constructor
    · intro _
      rw [Grammar.parse, Grammar.parse, hstart]
    · intro hless
      cases hless
  | some start =>
    obtain ⟨chart, hchart, htrees, htruncated⟩ := (parse_eq_ok_iff hstart).1 hparse
    have huncut := uncut_of_any (htruncated.symm.trans hcomplete)
    have hwhole : Whole g limits.stateSize start tokens chart := ⟨charts_of_chart hchart, huncut⟩
    rw [log_parse hstart hchart]
    constructor
    · intro hroom
      have hsame := chart_of_room hchart fun here hhere =>
        ⟨huncut here hhere, (largest_chart_le_iff hchart).1 hroom here hhere⟩
      rw [Grammar.parse, Grammar.parse, hstart]
      simp only [hsame]
    · intro hless
      obtain ⟨chart', hchart'⟩ := hwhole.exists_chart other.stateSize
      have hcharts' := charts_of_chart hchart'
      obtain ⟨trees', htrees'⟩ := hwhole.exists_derivations hcharts' htrees
      have hcut : chart'.any Position.cut = true := by
        apply hwhole.any_cut_of_small hcharts'
        intro hroom
        have hlargest := (largest_chart_le_iff hchart).2 hroom
        omega
      exact ⟨⟨trees', chart'.any Position.cut⟩,
        (parse_eq_ok_iff hstart).2 ⟨chart', hchart', htrees', rfl⟩, hcut⟩

/-- A grammar that derives a word directly and by way of another nonterminal: `S → A | a`,
`A → a`. -/
def twoWays : Grammar := (({} : Grammar).addAlternatives "S" "A|a").addAlternatives "A" "a"

/-- The largest position has five items. A limit of five changes nothing, a limit of three cuts
off one of the two trees, and a limit of four is not exceeded either, since nothing is drawn any
more when the fifth item is there. -/
theorem parse_of_stateSize_twoWays :
    ∃ parse, (twoWays.parseNames {} ["a"]).outcome = .ok parse ∧ parse.truncated = false ∧
      parse.trees.length = 2 ∧ largest (twoWays.parseNames {} ["a"]).log = 5 ∧
      twoWays.parseNames ⟨5⟩ ["a"] = twoWays.parseNames {} ["a"] ∧
      (∃ cut, (twoWays.parseNames ⟨3⟩ ["a"]).outcome = .ok cut ∧ cut.truncated = true) ∧
      (twoWays.parseNames ⟨3⟩ ["a"]).outcome.map (fun parse => parse.trees.length) = .ok 1 ∧
      (twoWays.parseNames ⟨4⟩ ["a"]).outcome.map Parse.truncated = .ok false := by
  have hrun : (twoWays.parseNames {} ["a"]).outcome.map (fun parse =>
      (parse.truncated, parse.trees.length)) = .ok (false, 2) := by cbv
  have hlargest : largest (twoWays.parseNames {} ["a"]).log = 5 := by cbv
  obtain ⟨parse, hparse, hview⟩ := map_eq_ok_iff.1 hrun
  obtain ⟨hcomplete, htrees⟩ := Prod.mk.inj hview
  exact ⟨parse, hparse, hcomplete, htrees, hlargest,
    (parse_of_stateSize hparse hcomplete ⟨5⟩).1 hlargest.le,
    (parse_of_stateSize hparse hcomplete ⟨3⟩).2 hlargest.ge, by cbv, by cbv⟩

end Grammar

end ContextFree
