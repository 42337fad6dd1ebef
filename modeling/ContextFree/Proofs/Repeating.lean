import ContextFree.Grammar.Text
import ContextFree.Proofs.Exhausting
import ContextFree.Proofs.Parsing

/-!
# Repeated productions

A production may be written down a second time. A parser then predicts an item again, which
waits behind the first one until it is drawn and known. An enumerator builds trees again, after
the first ones, and keeps none of them. So nothing changes about trees and their order.

There is one thing that repetition does to a parse. The limit is looked at whenever an item is
drawn, and a repeated item may be drawn when nothing else waits. Then the position is cut,
although its items are the same.
-/
namespace ContextFree

/-- A grammar with the same alternatives, of which some are repeated at the end. -/
structure Repeats (g g' : Grammar) : Prop where
  names : g'.names = g.names
  nonterminals : g'.nonterminals = g.nonterminals
  alternatives : ∀ symbol, ∃ extra, g'.alternatives symbol = g.alternatives symbol ++ extra ∧
    ∀ rhs ∈ extra, rhs ∈ g.alternatives symbol

namespace Grammar

variable {g : Grammar}

lemma repeats_addRule {production : Production} (h : production ∈ g.productions) :
    Repeats g (g.addRule production) where
  names := rfl
  nonterminals := by
    show (Rule.add g.rules production).map Rule.lhs = g.rules.map Rule.lhs
    rw [Rule.map_lhs_add]
    exact if_pos (lhs_mem_nonterminals h)
  alternatives := by
    intro symbol
    refine ⟨_, Rule.alternatives_add g.rules production symbol, ?_⟩
    intro rhs hrhs
    split at hrhs
    · next hsymbol =>
      rw [List.mem_singleton.1 hrhs, ← hsymbol, mem_alternatives]
      exact h
    · cases hrhs

end Grammar

/-! ### Queues with repeated items -/

/-- A queue and the same queue with more items in it, each of them behind an equal one or equal to
a known one. -/
inductive Padded : (known queue padded : List Item) → Prop
  | nil (known : List Item) : Padded known [] []
  | keep {known queue padded : List Item} (item : Item)
      (rest : Padded (item :: known) queue padded) : Padded known (item :: queue) (item :: padded)
  | skip {known queue padded : List Item} {item : Item} (item_known : item.In known)
      (rest : Padded known queue padded) : Padded known queue (item :: padded)

namespace Padded

variable {known queue padded extra : List Item} {item : Item}

lemma refl (known queue : List Item) : Padded known queue queue := by
  induction queue generalizing known with
  | nil => exact .nil known
  | cons item queue ih => exact .keep item (ih (item :: known))

lemma mono (h : Padded known queue padded) {more : List Item}
    (hmore : ∀ item ∈ known, item.In more) : Padded more queue padded := by
  induction h generalizing more with
  | nil => exact .nil more
  | keep item _ ih =>
    refine .keep item (ih (List.forall_mem_cons.2 ⟨Item.in_of_mem List.mem_cons_self, ?_⟩))
    exact fun other hother => (hmore other hother).mono fun _ hmem =>
      Item.in_of_mem (List.mem_cons_of_mem item hmem)
  | skip hknown _ ih => exact .skip (hknown.mono hmore) (ih hmore)

lemma append (h : Padded known queue padded) {following extended : List Item}
    (hfollowing : ∀ known, Padded known following extended) :
    Padded known (queue ++ following) (padded ++ extended) := by
  induction h with
  | nil known => exact hfollowing known
  | keep item _ ih => exact .keep item ih
  | skip hknown _ ih => exact .skip hknown ih

/-- Repeated items may be put at the end. -/
lemma of_extra (hextra : ∀ item ∈ extra, item.In (known ++ queue)) :
    Padded known queue (queue ++ extra) := by
  induction queue generalizing known with
  | nil =>
    rw [List.append_nil] at hextra
    induction extra with
    | nil => exact .nil known
    | cons item extra ih =>
      obtain ⟨hitem, hrest⟩ := List.forall_mem_cons.1 hextra
      exact .skip hitem (ih hrest)
  | cons first queue ih =>
    refine .keep first (ih fun item hitem => (hextra item hitem).mono fun other hother => ?_)
    apply Item.in_of_mem
    rwa [List.cons_append, ← List.perm_middle.mem_iff]

lemma eq_nil (h : Padded known queue []) : queue = [] := by
  cases h with
  | nil => rfl

/-- What is drawn from the larger queue is drawn from the other one as well, or it is known. -/
lemma cases_of_draw? {queue padded rest : Queue Item}
    (h : Padded known queue.toList padded.toList) (hdraw : padded.draw? = some (item, rest)) :
    (∃ rest', queue.draw? = some (item, rest') ∧ Padded (item :: known) rest'.toList rest.toList) ∨
      item.In known ∧ Padded known queue.toList rest.toList := by
  rw [Queue.toList_of_draw? hdraw] at h
  generalize hqueue : queue.toList = waiting at h
  cases h with
  | keep _ hrest =>
    obtain ⟨rest', hdraw', rfl⟩ := Queue.exists_draw?_of_toList hqueue
    exact .inl ⟨rest', hdraw', hrest⟩
  | skip hknown hrest => exact .inr ⟨hknown, hrest⟩

end Padded

/-! ### Positions of the two charts -/

namespace Position

variable {position : ℕ} {later later' : List Position}

/-- Positions with the same items. A repeated item may have cut the second one only. -/
structure Matches (here here' : Position) : Prop where
  items : here'.items = here.items
  cut : here.cut = true → here'.cut = true

lemma itemsAt_of_matches (h : List.Forall₂ Matches later later') (finish : ℕ) :
    itemsAt later' position finish = itemsAt later position finish := by
  have hitems : later'.map items = later.map items := by
    induction h with
    | nil => rfl
    | cons hmatches _ ih => rw [List.map_cons, List.map_cons, ih, hmatches.items]
  rw [itemsAt, itemsAt, ← List.getElem?_map, ← List.getElem?_map, hitems]

lemma any_cut_of_matches (h : List.Forall₂ Matches later later')
    (hcut : later.any Position.cut = true) : later'.any Position.cut = true := by
  induction h with
  | nil => exact hcut
  | cons hmatches _ ih =>
    rw [List.any_cons, Bool.or_eq_true] at hcut ⊢
    exact hcut.imp hmatches.cut ih

end Position

namespace Repeats

open Position

variable {g g' : Grammar} {limit position : ℕ} {later later' chart chart' : List Position}
  {seeds : List Item} {start : Symbol} {tokens : List (Option Symbol)}

lemma root_eq (h : Repeats g g') : g'.root = g.root := congrArg NameTable.fresh h.names

lemma leaf_eq (h : Repeats g g') (symbol : Symbol) : g'.leaf symbol = g.leaf symbol := by
  simp only [Grammar.leaf, Grammar.nameOr, Grammar.name?, h.names]

lemma isNonterminal_eq (h : Repeats g g') (symbol : Symbol) :
    g'.isNonterminal symbol = g.isNonterminal symbol := by
  rw [Bool.eq_iff_iff, Grammar.isNonterminal_iff, Grammar.isNonterminal_iff, h.nonterminals]

lemma start?_eq (h : Repeats g g') : g'.start? = g.start? := congrArg List.head? h.nonterminals

/-- Prediction finds the same items, some of them again. -/
lemma padded_predictions (h : Repeats g g') (position : ℕ) (symbol : Symbol) (known : List Item) :
    Padded known (g.predictions position symbol) (g'.predictions position symbol) := by
  obtain ⟨extra, halternatives, hextra⟩ := h.alternatives symbol
  rw [Grammar.predictions, Grammar.predictions, halternatives, List.map_append]
  apply Padded.of_extra
  intro item hitem
  obtain ⟨rhs, hrhs, rfl⟩ := List.mem_map.1 hitem
  exact Item.in_of_mem (List.mem_append_right known (List.mem_map_of_mem (hextra rhs hrhs)))

/-- What follows from an item is the same, up to repetitions. -/
lemma alike_consequences (h : Repeats g g') (position : ℕ)
    (hlater : List.Forall₂ Matches later later') (items : OrderedSet Item) (empties : Array Tree)
    (item : Item) :
    Alike (fun found found' => found'.1 = found.1 ∧ ∀ known, Padded known found.2 found'.2)
      (consequences g later position items empties item)
      (consequences g' later' position items empties item) := by
  unfold Position.consequences
  cases item.pending with
  | cons next pending =>
    refine .ok ⟨rfl, fun known => ?_⟩
    exact (h.padded_predictions position next known).append fun known => .refl known _
  | nil =>
    simp only [h.root_eq]
    by_cases hlhs : item.lhs = g.root
    · rw [if_pos hlhs, if_pos hlhs]
      exact .ok ⟨rfl, fun known => .nil known⟩
    · rw [if_neg hlhs, if_neg hlhs]
      cases item.complete with
      | error fault => exact .error fault
      | ok tree =>
        refine .ok ⟨rfl, fun known => ?_⟩
        simp only [completed, itemsAt_of_matches hlater]
        exact .refl known _

/-- A drawn item is new to both loops or to none, so they add the same items. -/
lemma close_of_padded (h : Repeats g g') (hlater : List.Forall₂ Matches later later')
    {items : OrderedSet Item} {empties : Array Tree} {queue padded : Queue Item}
    (hpadded : Padded items.toList queue.toList padded.toList) :
    (close g' limit later' position items empties padded).1 =
        (close g limit later position items empties queue).1 ∧
      Alike (fun cut cut' : Bool => cut = true → cut' = true)
        (close g limit later position items empties queue).2
        (close g' limit later' position items empties padded).2 := by
  -- the second loop draws at least as often as the first one, so the induction follows it
  fun_induction Position.close g' limit later' position items empties padded generalizing queue with
  | case1 items empties padded hdraw =>
    rw [Queue.draw?_eq_none_iff.1 hdraw] at hpadded
    rw [close_of_empty (Queue.draw?_eq_none_iff.2 hpadded.eq_nil)]
    exact ⟨rfl, .ok id⟩
  | case2 items empties padded item rest hdraw _ hroom hknown ih =>
    rcases hpadded.cases_of_draw? hdraw with ⟨rest', hdraw', hrest⟩ | ⟨_, hrest⟩
    · rw [close_of_known hdraw' hroom hknown]
      apply ih (hrest.mono _)
      exact List.forall_mem_cons.2
        ⟨Item.contains_iff_in.1 hknown, fun other hother => Item.in_of_mem hother⟩
    · exact ih hrest
  | case3 items empties padded item rest hdraw _ hroom hnew _ fault hfault =>
    rcases hpadded.cases_of_draw? hdraw with ⟨rest', hdraw', _⟩ | ⟨hknown, _⟩
    · have halike := h.alike_consequences position hlater (items.insert item) empties item
      rw [hfault] at halike
      rw [close_of_fault hdraw' hroom hnew halike.eq_error_of_right]
      exact ⟨rfl, .error fault⟩
    · exact absurd (Item.contains_iff_in.2 hknown) hnew
  | case4 items empties padded item rest hdraw _ hroom hnew _ found extended hfound ih =>
    rcases hpadded.cases_of_draw? hdraw with ⟨rest', hdraw', hrest⟩ | ⟨hknown, _⟩
    · have halike := h.alike_consequences position hlater (items.insert item) empties item
      rw [hfound] at halike
      obtain ⟨⟨found', following⟩, hfound', hsame, hfollowing⟩ := halike.exists_of_ok_right
      obtain rfl : found = found' := hsame
      rw [close_of_new hdraw' hroom hnew hfound']
      apply ih
      rw [Queue.toList_append, Queue.toList_append, toList_insert_of_new hnew]
      refine (hrest.mono fun other hother => Item.in_of_mem ?_).append hfollowing
      rwa [(List.perm_append_singleton item items.toList).mem_iff]
    · exact absurd (Item.contains_iff_in.2 hknown) hnew
  | case5 items empties padded item rest hdraw _ hfull =>
    cases hdraw' : queue.draw? with
    | none =>
      rw [close_of_empty hdraw']
      exact ⟨rfl, .ok fun hcut => by cases hcut⟩
    | some drawn =>
      rw [close_of_full hdraw' (Nat.lt_of_not_le hfull)]
      exact ⟨rfl, .ok id⟩

lemma alike_build (h : Repeats g g') (hlater : List.Forall₂ Matches later later') :
    Alike Matches (build g limit later position seeds).outcome
      (build g' limit later' position seeds).outcome := by
  obtain ⟨hitems, hcuts⟩ := h.close_of_padded hlater (.refl _ (Queue.ofList seeds).toList)
  rw [outcome_build, outcome_build, hitems]
  exact hcuts.map fun cut cut' hcut => ⟨rfl, hcut⟩

lemma scan_eq (h : Repeats g g') (hlater : List.Forall₂ Matches later later')
    (token : Option Symbol) : scan g' token later' = scan g token later := by
  cases token with
  | none => rfl
  | some symbol =>
    cases hlater with
    | nil => rfl
    | cons hmatches _ => simp only [Position.scan, h.isNonterminal_eq, h.leaf_eq, hmatches.items]

/-- The positions of an input match one by one. -/
lemma alike_chart (h : Repeats g g') (limit : ℕ) (start : Symbol) (tokens : List (Option Symbol)) :
    Alike (List.Forall₂ Matches) (g.chart limit start tokens).outcome
      (g'.chart limit start tokens).outcome := by
  have hrootItem : g'.rootItem start tokens.length = g.rootItem start tokens.length := by
    rw [Grammar.rootItem, Grammar.rootItem, h.root_eq]
  rw [Grammar.chart, Grammar.chart, Logged.outcome_bind, Logged.outcome_bind, hrootItem]
  refine (h.alike_build .nil).bind fun last last' hlast => ?_
  induction tokens.zipIdx with
  | nil => exact .ok (.cons hlast .nil)
  | cons token rest ih =>
    rw [List.foldrM_cons, List.foldrM_cons, Logged.outcome_bind, Logged.outcome_bind]
    refine ih.bind fun later later' hlater => ?_
    rw [prepend, prepend, Logged.outcome_bind, Logged.outcome_bind, h.scan_eq hlater]
    exact (h.alike_build hlater).bind fun here here' hhere => .ok (.cons hhere hlater)

lemma derivations_eq (h : Repeats g g') (hchart : List.Forall₂ Matches chart chart') :
    g'.derivations chart' = g.derivations chart := by
  have hfinished : g'.isFinishedRoot = g.isFinishedRoot := by
    funext item
    rw [Grammar.isFinishedRoot, Grammar.isFinishedRoot, h.root_eq]
  rw [Grammar.derivations, Grammar.derivations, hfinished]
  cases hchart with
  | nil => rfl
  | cons hmatches _ => simp only [List.head?_cons, Option.map_some, hmatches.items]

theorem alike_parse (h : Repeats g g') (limits : ParseLimits) (tokens : List (Option Symbol)) :
    Alike (fun parse parse' => parse'.trees = parse.trees ∧
        (parse.truncated = true → parse'.truncated = true))
      (g.parse limits tokens).outcome (g'.parse limits tokens).outcome := by
  cases hstart : g.start? with
  | none =>
    rw [Grammar.parse, Grammar.parse, h.start?_eq, hstart]
    exact .ok ⟨rfl, id⟩
  | some start =>
    rw [Grammar.outcome_parse hstart, Grammar.outcome_parse (h.start?_eq.trans hstart)]
    refine (h.alike_chart limits.stateSize start tokens).bind fun chart chart' hchart => ?_
    rw [h.derivations_eq hchart]
    cases g.derivations chart with
    | error fault => exact .error fault
    | ok trees => exact .ok ⟨rfl, any_cut_of_matches hchart⟩

end Repeats

/-! ### Steps of the two enumerations -/

namespace Expansion

variable {g g' : Grammar} {limit limit' : ℕ} {e e' : Expansion} {symbol : Symbol}

lemma Exact.derivations_eq_nil (h : Exact g e) (hdepth : e.depth = 0)
    (hsymbol : symbol ∈ g.nonterminals) : e.derivations symbol = [] := by
  rw [List.eq_nil_iff_forall_not_mem]
  intro tree htree
  obtain ⟨⟨_, children, hnode⟩, hheight⟩ :=
    (h.mem_shapes_derivations hsymbol).1 (List.mem_map_of_mem htree)
  have htall := Shape.two_le_height_node symbol children
  rw [hnode] at hheight
  omega

/-- A state holds what a step makes of another state. -/
structure MadeFrom (g : Grammar) (before e : Expansion) : Prop where
  depth : e.depth = before.depth + 1
  derivations : ∀ symbol ∈ g.nonterminals, ∃ rule ∈ g.rules, rule.lhs = symbol ∧
    ∃ language, before.Deepens rule language ∧ e.derivations symbol = language.trees

/-- After the start every state holds what the last finished step made. -/
lemma Reachable.exists_madeFrom (h : Reachable g limit e) (hdepth : 0 < e.depth) :
    ∃ before, Reachable g limit before ∧ MadeFrom g before e := by
  have hboth : Reachable g limit e ∧
      (0 < e.depth → ∃ before, Reachable g limit before ∧ MadeFrom g before e) := by
    apply h.invariant (motive := fun e => Reachable g limit e ∧
      (0 < e.depth → ∃ before, Reachable g limit before ∧ MadeFrom g before e))
    · exact ⟨.start, fun hdepth => absurd hdepth (Nat.lt_irrefl 0)⟩
    · intro e next result ⟨hreachable, hbefore⟩ hstep
      refine ⟨.expand hreachable hstep, ?_⟩
      rcases cases_of_expand hstep with ⟨_, _, _, _, rfl⟩ | ⟨_, _, rfl, _⟩
      · intro _
        exact ⟨e, hreachable, depth_of_expand hstep, fun symbol hsymbol =>
          hreachable.exact.exists_deepens hstep hsymbol⟩
      · -- a step that was given up leaves depth and trees alone
        intro hdepth
        obtain ⟨before, hreached, hmade⟩ := hbefore hdepth
        exact ⟨before, hreached, hmade.depth, hmade.derivations⟩
  exact hboth.2 hdepth

/-- Rows that come again at the end leave the language of a rule as it is. -/
lemma Deepens.trees_eq_of_rows {rule rule' : Rule} {language language' : Language}
    {again : List (List Tree)} (h : e.Deepens rule language) (h' : e'.Deepens rule' language')
    (hlhs : rule'.lhs = rule.lhs) (hrows : e'.rows rule' = e.rows rule ++ again)
    (hagain : ∀ row ∈ again, row ∈ e.rows rule) : language'.trees = language.trees := by
  obtain ⟨_, trees, htrees, hlanguage⟩ := h
  obtain ⟨_, trees', htrees', hlanguage'⟩ := h'
  rw [hrows, hlhs, List.mapM_append, htrees] at htrees'
  obtain ⟨_, hfirst, htrees'⟩ := bind_eq_ok_iff.1 htrees'
  obtain ⟨built, hbuilt, htrees'⟩ := bind_eq_ok_iff.1 htrees'
  obtain rfl := Except.ok.inj hfirst
  obtain rfl := Except.ok.inj htrees'
  have hknown : ∀ tree ∈ built, tree ∈ trees := by
    intro tree htree
    obtain ⟨row, hrow, hnode⟩ := exists_of_mem_mapM hbuilt tree htree
    obtain ⟨other, hother, hnode'⟩ := exists_mem_of_mapM htrees row (hagain row hrow)
    rwa [Except.ok.inj (hnode.symm.trans hnode')]
  rw [hlanguage, hlanguage', dedup_append_of_mem hknown]

end Expansion

namespace Repeats

open Expansion

variable {g g' : Grammar} {limit limit' : ℕ} {e e' : Expansion}

/-- The choices for a symbol are the trees of it, or its leaf. -/
lemma choices_eq (h : Repeats g g') (hexact : Exact g e) (hexact' : Exact g' e')
    (hsame : ∀ symbol ∈ g.nonterminals, e'.derivations symbol = e.derivations symbol)
    (symbol : Symbol) : e'.choices symbol = e.choices symbol := by
  by_cases hsymbol : symbol ∈ g.nonterminals
  · have hsymbol' : symbol ∈ g'.nonterminals := by rwa [h.nonterminals]
    rw [hexact.choices_of_nonterminal hsymbol, hexact'.choices_of_nonterminal hsymbol',
      hsame symbol hsymbol]
  · have hsymbol' : symbol ∉ g'.nonterminals := by rwa [h.nonterminals]
    rw [hexact.choices_of_terminal hsymbol, hexact'.choices_of_terminal hsymbol', h.leaf_eq]

/-- Enumerations hold the same trees at the same depth, in the same order. -/
theorem derivations_of_depth_eq (h : Repeats g g') (he : Reachable g limit e)
    (he' : Reachable g' limit' e') (hdepth : e'.depth = e.depth) :
    ∀ symbol ∈ g.nonterminals, e'.derivations symbol = e.derivations symbol := by
  induction hlevel : e.depth generalizing e e' with
  | zero =>
    intro symbol hsymbol
    rw [he.exact.derivations_eq_nil hlevel hsymbol,
      he'.exact.derivations_eq_nil (hdepth.trans hlevel) (h.nonterminals ▸ hsymbol)]
  | succ level ih =>
    intro symbol hsymbol
    obtain ⟨before, hbefore, hmade⟩ := he.exists_madeFrom (by omega)
    obtain ⟨before', hbefore', hmade'⟩ := he'.exists_madeFrom (by omega)
    have hbeforeDepth := hmade.depth
    have hbeforeDepth' := hmade'.depth
    obtain ⟨rule, hrule, rfl, language, hdeepens, htrees⟩ := hmade.derivations symbol hsymbol
    obtain ⟨rule', hrule', hlhs, language', hdeepens', htrees'⟩ :=
      hmade'.derivations rule.lhs (h.nonterminals ▸ hsymbol)
    have hproducts : before'.products = before.products := products_congr
      (h.choices_eq hbefore.exact hbefore'.exact (ih hbefore hbefore' (by omega) (by omega)))
    obtain ⟨extra, halternatives, hextra⟩ := h.alternatives rule.lhs
    rw [← hlhs, Grammar.alternatives_of_mem_rules hrule', hlhs,
      Grammar.alternatives_of_mem_rules hrule] at halternatives
    rw [Grammar.alternatives_of_mem_rules hrule] at hextra
    have hrows : before'.rows rule' = before.rows rule ++ extra.flatMap before.products := by
      rw [rows, rows, halternatives, List.flatMap_append, hproducts]
    rw [htrees, htrees']
    apply hdeepens.trees_eq_of_rows hdeepens' hlhs hrows
    intro row hrow
    obtain ⟨rhs, hrhs, hrow⟩ := List.mem_flatMap.1 hrow
    exact List.mem_flatMap.2 ⟨rhs, hextra rhs hrhs, hrow⟩

end Repeats

namespace Grammar

open Expansion

variable {g : Grammar}

/-- Adding a production that is there already changes neither the trees of a parse nor those of
an enumeration, nor their order. It may only cut a parse that was not cut before. -/
theorem trees_of_repeated_production {production : Production} (h : production ∈ g.productions) :
    (∀ limits tokens,
      ((g.addRule production).parse limits tokens).outcome.map Parse.trees =
          (g.parse limits tokens).outcome.map Parse.trees ∧
        ∀ parse parse', (g.parse limits tokens).outcome = .ok parse →
          ((g.addRule production).parse limits tokens).outcome = .ok parse' →
          parse'.truncated = false → parse.truncated = false) ∧
      ∀ limit limit' e e', Reachable g limit e → Reachable (g.addRule production) limit' e' →
        e'.depth = e.depth →
        ∀ symbol ∈ g.nonterminals, e'.derivations symbol = e.derivations symbol := by
  have hrepeats := repeats_addRule h
  constructor
  · intro limits tokens
    have halike := hrepeats.alike_parse limits tokens
    constructor
    · exact halike.map_eq fun parse parse' hrelated => hrelated.1
    · intro parse parse' hparse hparse' hcomplete
      rw [hparse, hparse'] at halike
      obtain ⟨_, hsame, _, hcut⟩ := halike.exists_of_ok_right
      obtain rfl := Except.ok.inj hsame
      rw [← Bool.not_eq_true] at hcomplete ⊢
      exact mt hcut hcomplete
  · intro limit limit' e e' he he' hdepth
    exact hrepeats.derivations_of_depth_eq he he' hdepth

/-- Words of one `a` and any number of `b`: `S → S b | a`. -/
def suffixed : Grammar := ({} : Grammar).addAlternatives "S" "Sb|a"

def suffixedEnd : Production := ⟨⟨0⟩, [⟨2⟩]⟩

/-- With the second production repeated, a limit of two cuts the parse of `a b`, which has its
tree nevertheless, and a limit of three does not. Three steps find three trees, at a higher cost. -/
theorem trees_of_repeated_suffixedEnd :
    suffixedEnd ∈ suffixed.productions ∧
      ((suffixed.addRule suffixedEnd).parse ⟨2⟩ [some ⟨2⟩, some ⟨1⟩]).outcome.map Parse.trees =
        (suffixed.parse ⟨2⟩ [some ⟨2⟩, some ⟨1⟩]).outcome.map Parse.trees ∧
      (suffixed.parse ⟨2⟩ [some ⟨2⟩, some ⟨1⟩]).outcome.map
        (fun parse => (parse.truncated, parse.trees.length)) = .ok (false, 1) ∧
      ((suffixed.addRule suffixedEnd).parse ⟨2⟩ [some ⟨2⟩, some ⟨1⟩]).outcome.map
        Parse.truncated = .ok true ∧
      (∃ parse parse', (suffixed.parse ⟨3⟩ [some ⟨2⟩, some ⟨1⟩]).outcome = .ok parse ∧
        ((suffixed.addRule suffixedEnd).parse ⟨3⟩ [some ⟨2⟩, some ⟨1⟩]).outcome = .ok parse' ∧
        parse'.truncated = false ∧ parse.truncated = false) ∧
      ∃ e e', Reachable suffixed 100 e ∧ Reachable (suffixed.addRule suffixedEnd) 200 e' ∧
        e.depth = 3 ∧ e'.depth = 3 ∧ e.cost < e'.cost ∧ (e.derivations ⟨0⟩).length = 3 ∧
        ∀ symbol ∈ suffixed.nonterminals, e'.derivations symbol = e.derivations symbol := by
  have hproduction : suffixedEnd ∈ suffixed.productions := by decide
  obtain ⟨hparses, hexpansions⟩ := trees_of_repeated_production hproduction
  have hrun : (suffixed.parse ⟨3⟩ [some ⟨2⟩, some ⟨1⟩]).outcome.map Parse.truncated =
      .ok false := by cbv
  have hrun' : ((suffixed.addRule suffixedEnd).parse ⟨3⟩ [some ⟨2⟩, some ⟨1⟩]).outcome.map
      Parse.truncated = .ok false := by cbv
  obtain ⟨parse, hparse, _⟩ := map_eq_ok_iff.1 hrun
  obtain ⟨parse', hparse', hcomplete'⟩ := map_eq_ok_iff.1 hrun'
  have hcomplete := (hparses ⟨3⟩ [some ⟨2⟩, some ⟨1⟩]).2 parse parse' hparse hparse' hcomplete'
  have hsteps : ((start suffixed 100).run 3).outcome.map (fun ended =>
      (ended.2.depth, ended.2.cost, (ended.2.derivations ⟨0⟩).length)) = .ok (3, 30, 3) := by cbv
  have hsteps' : ((start (suffixed.addRule suffixedEnd) 200).run 3).outcome.map
      (fun ended => (ended.2.depth, ended.2.cost)) = .ok (3, 36) := by cbv
  obtain ⟨⟨enumeration, e⟩, hexpand, hstate⟩ := map_eq_ok_iff.1 hsteps
  obtain ⟨⟨enumeration', e'⟩, hexpand', hstate'⟩ := map_eq_ok_iff.1 hsteps'
  simp only [Prod.mk.injEq] at hstate hstate'
  obtain ⟨hdepth, hcost, hlength⟩ := hstate
  obtain ⟨hdepth', hcost'⟩ := hstate'
  have he : Reachable suffixed 100 e := .run .start hexpand
  have he' : Reachable (suffixed.addRule suffixedEnd) 200 e' := .run .start hexpand'
  exact ⟨hproduction, (hparses ⟨2⟩ [some ⟨2⟩, some ⟨1⟩]).1, by cbv, by cbv,
    ⟨parse, parse', hparse, hparse', hcomplete', hcomplete⟩, e, e', he, he', hdepth, hdepth',
    by omega, hlength, hexpansions 100 200 e e' he he' (hdepth'.trans hdepth.symm)⟩

end Grammar

end ContextFree
