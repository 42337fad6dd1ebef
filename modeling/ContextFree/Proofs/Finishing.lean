import ContextFree.Proofs.Ambiguity
import ContextFree.Proofs.Overflow
import ContextFree.Proofs.Parsing
import Mathlib.Data.Set.Card

/-!
# Parses that are not cut

An analysis without unbounded ambiguity says that no nonterminal is cyclic which is reached and
has a derivation tree. A parse only ever looks at nonterminals that are reached, and the trees
it matches are derivation trees for parts of the input, so none of them has a cyclic nonterminal
in it and their heights are bounded. Then there are finitely many items that may stand at any
position of the chart. As no item is added twice, a limit as large as their number is never
exceeded.

The bound depends on grammar and input only. Short of a tree too large to be measured, every
parse with such a limit has an outcome and is complete.
-/
namespace ContextFree

open Relation

namespace Grammar

variable {g : Grammar}

/-- No nonterminal is cyclic which is reached and has a derivation tree. -/
def Unlooped (g : Grammar) : Prop :=
  ∀ symbol shape, g.Reached symbol → g.IsDerivation symbol shape →
    ¬ TransGen g.Passes symbol symbol

lemma Explains.unlooped {a : Analysis} (h : g.Explains a) (hnames : g.NamesAll)
    (hflag : a.unboundedAmbiguity = false) : g.Unlooped := by
  intro symbol shape hreached hshape hcycle
  have hset := (h.unboundedAmbiguity_iff hnames).2 ⟨symbol, hcycle, hreached, shape, hshape⟩
  rw [hflag] at hset
  cases hset

/-- A height that no tree for a sentence of the given length exceeds. -/
def heightBound (g : Grammar) (length : ℕ) : ℕ :=
  length * (g.nonterminals.length + 2) + g.nonterminals.length + 2

/-- Below a nonterminal that is reached every nonterminal is reached. -/
lemma Unlooped.height_le (h : g.Unlooped) {shape : Shape} (hvalid : g.Valid shape)
    (hroot : shape.root ∈ g.nonterminals → g.Reached shape.root) {length : ℕ}
    (hlength : shape.yield.length ≤ length) : shape.height ≤ g.heightBound length := by
  have hacyclic : ∀ part : Shape, part.Within shape → ¬ TransGen g.Passes part.root part.root := by
    intro part hpart hcycle
    obtain ⟨frames, hspine, _, hpartValid⟩ := exists_spine_of_within hpart hvalid
    have hpartRoot := left_mem_nonterminals_of_transGen hcycle
    have hshapeRoot := hspine.mem_nonterminals hpartRoot
    obtain ⟨start, hstart, hlead⟩ := (reached_iff hshapeRoot).1 (hroot hshapeRoot)
    have hreached : g.Reached part.root :=
      (reached_iff hpartRoot).2 ⟨start, hstart, hlead.trans (hspine.mentions hpartRoot)⟩
    exact h part.root part hreached (hpartValid.isDerivation hpartRoot) hcycle
  have hheight := height_le_of_acyclic hvalid hacyclic
  have hrank := g.passRank_le shape.root
  have hproduct := Nat.mul_le_mul_right (g.nonterminals.length + 2) hlength
  rw [heightBound]
  omega

lemma NamesAll.root_not_mem (h : g.NamesAll) : g.root ∉ g.nonterminals := by
  intro hroot
  have hlt := h.namesLeft g.root hroot
  exact absurd hlt (Nat.lt_irrefl _)

end Grammar

/-! ### Finitely many views -/

/-- What the view of an item is made of: a production, a position of the input and valid shapes
of bounded height. -/
structure Dotted.Bounded (g : Grammar) (start : Symbol) (length height : ℕ) (dotted : Dotted) :
    Prop where
  production : ⟨dotted.lhs, dotted.pending.reverse ++ dotted.matched.map Shape.root⟩ ∈
    (⟨g.root, [start]⟩ :: g.productions : List Production)
  finish_le : dotted.finish ≤ length
  valid : ∀ shape ∈ dotted.matched, g.Valid shape ∧ shape.height ≤ height

namespace Dotted

/-- The views of a production that is split at one of its places: what is to the left is pending,
and each symbol to the right is matched by a valid shape of bounded height. -/
def views (g : Grammar) (length height : ℕ) (production : Production) (split : ℕ) : Set Dotted :=
  Set.image2 (mk production.lhs (production.rhs.take split).reverse) {finish | finish ≤ length}
    {matched | List.Forall₂ (fun symbol shape => shape ∈
      {shape | g.Valid shape ∧ shape.root = symbol ∧ shape.height ≤ height})
      (production.rhs.drop split) matched}

lemma finite_views (g : Grammar) (length height : ℕ) (production : Production) (split : ℕ) :
    (views g length height production split).Finite :=
  Set.Finite.image2 _ (Set.finite_le_nat length)
    (Grammar.finite_forall₂ (g.finite_height_le height) _)

variable {g : Grammar} {start : Symbol} {length height : ℕ} {dotted : Dotted}

/-- The production is read off the view, and it is split behind the symbols that are pending. -/
lemma Bounded.mem_views (h : dotted.Bounded g start length height) :
    dotted ∈ views g length height
      ⟨dotted.lhs, dotted.pending.reverse ++ dotted.matched.map Shape.root⟩
      dotted.pending.length := by
  refine ⟨dotted.finish, h.finish_le, dotted.matched, ?_, ?_⟩
  · rw [Set.mem_ofPred_eq, List.drop_left' List.length_reverse, List.forall₂_map_left_iff,
      List.forall₂_same]
    intro shape hshape
    obtain ⟨hvalid, hheight⟩ := h.valid shape hshape
    exact ⟨hvalid, rfl, hheight⟩
  · rw [List.take_left' List.length_reverse, List.reverse_reverse]

/-- A grammar has finitely many productions, and each has finitely many places. -/
lemma finite_bounded (g : Grammar) (start : Symbol) (length height : ℕ) :
    {dotted | Bounded g start length height dotted}.Finite := by
  have hall : (⋃ production ∈ {production | production ∈
      (⟨g.root, [start]⟩ :: g.productions : List Production)},
        ⋃ split ∈ {split | split ≤ production.rhs.length},
          views g length height production split).Finite :=
    (List.finite_toSet _).biUnion fun production _ =>
      (Set.finite_le_nat _).biUnion fun split _ => finite_views g length height production split
  apply hall.subset
  intro dotted hdotted
  have hsplit : dotted.pending.length ≤
      (dotted.pending.reverse ++ dotted.matched.map Shape.root).length := by
    rw [List.length_append, List.length_reverse]
    omega
  exact Set.mem_biUnion hdotted.production (Set.mem_biUnion hsplit hdotted.mem_views)

end Dotted

/-- Different items with views in a finite set are at most as many as the set has elements. -/
lemma length_le_of_distinct {items : List Item} {views : Set Dotted} (hviews : views.Finite)
    (hdistinct : items.Pairwise fun a b => a.dotted ≠ b.dotted)
    (hitems : ∀ item ∈ items, item.dotted ∈ views) : items.length ≤ views.ncard := by
  classical
  have hnodup : (items.map Item.dotted).Nodup := List.pairwise_map.2 hdistinct
  have hcard := List.toFinset_card_of_nodup hnodup
  rw [List.length_map] at hcard
  rw [← hcard, ← Set.ncard_coe_finset]
  apply Set.ncard_le_ncard ?_ hviews
  intro dotted hdotted
  obtain ⟨item, hitem, rfl⟩ := List.mem_map.1 (List.mem_toFinset.1 hdotted)
  exact hitems item hitem

/-! ### What a parse looks at -/

section Reached

variable {g : Grammar} {start : Symbol} {tokens : List (Option Symbol)} {position : ℕ}
  {item : Item}

/-- The start symbol leads to every nonterminal of the production. -/
def Item.Reached (g : Grammar) (start : Symbol) (item : Item) : Prop :=
  ∀ symbol ∈ item.lhs :: item.rhs, symbol ∈ g.nonterminals → ReflTransGen g.Mentions start symbol

lemma Item.reached_rootItem (hroot : g.root ∉ g.nonterminals) (finish : ℕ) :
    (g.rootItem start finish).Reached g start := by
  have hrhs : (g.rootItem start finish).rhs = [start] := rhs_predict _ _ _
  intro symbol hsymbol hnonterminal
  rw [hrhs, List.mem_cons, List.mem_singleton] at hsymbol
  rcases hsymbol with rfl | rfl
  · exact absurd hnonterminal hroot
  · exact .refl

lemma Item.Reached.predict (h : item.Reached g start) {next : Symbol} {pending rhs : List Symbol}
    (hpending : item.pending = next :: pending) (hrhs : rhs ∈ g.alternatives next) :
    (Item.predict next rhs position).Reached g start := by
  have hproduction := Grammar.mem_alternatives.1 hrhs
  have hnext : next ∈ item.rhs := by simp [Item.rhs, hpending]
  have hlead : ReflTransGen g.Mentions start next :=
    h next (List.mem_cons_of_mem _ hnext) (Grammar.lhs_mem_nonterminals hproduction)
  intro symbol hsymbol hnonterminal
  rw [rhs_predict] at hsymbol
  rcases List.mem_cons.1 hsymbol with rfl | hmem
  · exact hlead
  · exact hlead.tail ⟨hnonterminal, rhs, hproduction, hmem⟩

lemma Item.Reached.advance {moved : Item} {tree : Tree} (h : item.Reached g start)
    (hmoved : item.advance? tree = some moved) : moved.Reached g start := by
  have hrhs := rhs_of_advance? hmoved
  obtain ⟨pending, _, rfl⟩ := advance?_eq_some_iff.1 hmoved
  rw [Item.Reached, hrhs]
  exact h

/-- A finished item whose tree cannot be built has matched too large a tree for a part of the
input. -/
lemma Item.Fits.oversized (h : item.Fits g start tokens position) {fault : Fault}
    (hfaults : Position.Faults g item fault) :
    fault = .addOverflow ∧
      g.IsDerivation item.lhs (.node item.lhs (item.parsed.map Tree.shape)) ∧
      (Shape.node item.lhs (item.parsed.map Tree.shape)).yield.map some <:+: tokens ∧
      (Shape.node item.lhs (item.parsed.map Tree.shape)).Oversized := by
  obtain ⟨hderivation, hyield⟩ := h.isDerivation hfaults.pending hfaults.lhs
  have hbuilt : ∀ tree ∈ item.parsed, tree.Built := fun tree htree => (h.grown tree htree).built
  obtain ⟨hfault, hoversized⟩ := Tree.oversized_of_node hbuilt hfaults.tree
  have hpart : between tokens position item.finish <:+: tokens :=
    (List.take_prefix _ _).isInfix.trans (List.drop_suffix _ _).isInfix
  rw [← hyield] at hpart
  exact ⟨hfault, hderivation, hpart, hoversized⟩

/-- An item that is true of its position and belongs to a production that is reached. -/
structure Item.Proper (g : Grammar) (start : Symbol) (tokens : List (Option Symbol))
    (position : ℕ) (item : Item) : Prop where
  fits : item.Fits g start tokens position
  reached : item.Reached g start

open Position in
lemma kept_proper (hroot : g.root ∉ g.nonterminals) (start : Symbol)
    (tokens : List (Option Symbol)) : Kept g start tokens (Item.Proper g start tokens) where
  position_le h := h.fits.position_le
  root := ⟨Item.fits_rootItem g start tokens, Item.reached_rootItem hroot tokens.length⟩
  scan htoken hterminal hitem hmoved :=
    ⟨hitem.fits.scan htoken hterminal hmoved, hitem.reached.advance hmoved⟩
  predict hle hitem hpending hrhs :=
    ⟨Item.fits_predict hle hrhs, hitem.reached.predict hpending hrhs⟩
  complete hchild hcompletes hparent hmoved :=
    ⟨hchild.fits.complete hcompletes hparent.fits hmoved, hparent.reached.advance hmoved⟩

namespace Item.Proper

/-- The matched trees are for parts of the input, so their heights are bounded. -/
lemma bounded (h : item.Proper g start tokens position) (hunlooped : g.Unlooped)
    (hstart : g.start? = some start) :
    item.dotted.Bounded g start tokens.length (g.heightBound tokens.length) where
  production := by
    have hrhs : item.dotted.pending.reverse ++ item.dotted.matched.map Shape.root = item.rhs := by
      simp [Item.dotted, Item.rhs, Function.comp_def]
    rw [hrhs]
    rcases h.fits.production with hproduction | ⟨hlhs, hstart, _⟩
    · exact List.mem_cons_of_mem _ hproduction
    · rw [hstart]
      exact List.mem_cons.2 (.inl (congrArg (Production.mk · [start]) hlhs))
  finish_le := h.fits.finish_le
  valid := by
    intro shape hshape
    obtain ⟨tree, htree, rfl⟩ := List.mem_map.1 hshape
    have hvalid := h.fits.valid tree htree
    have hsymbol : tree.shape.root ∈ item.rhs := by
      rw [Tree.root_shape]
      exact List.mem_append_right _ (List.mem_map_of_mem htree)
    have hlength : tree.shape.yield.length ≤ tokens.length := by
      have hspan := congrArg List.length h.fits.yield
      rw [List.length_map, length_between h.fits.finish_le] at hspan
      obtain ⟨before, after, hsplit⟩ := List.append_of_mem htree
      rw [hsplit, List.flatMap_append, List.flatMap_cons] at hspan
      simp only [List.length_append] at hspan
      have hfinish := h.fits.finish_le
      omega
    refine ⟨hvalid, hunlooped.height_le hvalid (fun hroot => ?_) hlength⟩
    exact (Grammar.reached_iff hroot).2
      ⟨start, hstart, h.reached _ (List.mem_cons_of_mem _ hsymbol) hroot⟩

/-- A finished item whose tree cannot be built belongs to a production that is reached. -/
lemma oversized (h : item.Proper g start tokens position) (hstart : g.start? = some start)
    {fault : Fault} (hfaults : Position.Faults g item fault) :
    fault = .addOverflow ∧ ∃ symbol shape, g.Reached symbol ∧ g.IsDerivation symbol shape ∧
      shape.yield.map some <:+: tokens ∧ shape.Oversized := by
  obtain ⟨hfault, hderivation, hpart, hoversized⟩ := h.fits.oversized hfaults
  have hlhs := hderivation.mem_nonterminals
  have hreached : g.Reached item.lhs :=
    (Grammar.reached_iff hlhs).2 ⟨start, hstart, h.reached _ List.mem_cons_self hlhs⟩
  exact ⟨hfault, item.lhs, _, hreached, hderivation, hpart, hoversized⟩

end Item.Proper

end Reached

/-! ### The parse -/

namespace Grammar

open Position

variable {g : Grammar} {limit : ℕ} {start : Symbol} {tokens : List (Option Symbol)}
  {chart : List Position}

/-- The number of views that items of a parse may have. -/
noncomputable def viewBound (g : Grammar) (start : Symbol) (length : ℕ) : ℕ :=
  {dotted | Dotted.Bounded g start length (g.heightBound length) dotted}.ncard

/-- No position has more items than there are views. -/
lemma uncut_of_charts (hunlooped : g.Unlooped) (hroot : g.root ∉ g.nonterminals)
    (hstart : g.start? = some start) (hcharts : Charts g limit start tokens 0 chart)
    (hlimit : g.viewBound start tokens.length ≤ limit) : ∀ here ∈ chart, here.cut = false := by
  intro here hhere
  obtain ⟨position, hlt, hget⟩ := List.mem_iff_getElem.1 hhere
  have hle : position ≤ tokens.length := by
    have hlength := hcharts.length_eq
    omega
  obtain ⟨other, hother, hbuilt⟩ := hcharts.built_at hle
  obtain rfl : other = here := by
    rw [List.getElem?_eq_getElem hlt, hget] at hother
    exact (Option.some.inj hother).symm
  have hitems : ∀ item ∈ other.items, item.dotted ∈
      {dotted | Dotted.Bounded g start tokens.length (g.heightBound tokens.length) dotted} := by
    intro item hitem
    rw [← itemsIn_of_getElem? hother] at hitem
    have hproper := (kept_proper hroot start tokens).of_charts hcharts (Nat.zero_le position)
    exact (hproper item hitem).bounded hunlooped hstart
  have hcount := length_le_of_distinct (Dotted.finite_bounded g start _ _)
    (distinct_of_build hbuilt) hitems
  rw [← Bool.not_eq_true]
  intro hcut
  have hmany := lt_length_of_cut hbuilt hcut
  rw [viewBound] at hlimit
  omega

lemma exists_derivations (hroot : g.root ∉ g.nonterminals)
    (hcharts : Charts g limit start tokens 0 chart) : ∃ trees, g.derivations chart = .ok trees := by
  rw [derivations_eq]
  apply exists_mapM
  intro item hitem
  obtain ⟨hmem, hfinished⟩ := List.mem_filter.1 hitem
  obtain ⟨hlhs, hpending⟩ := isFinishedRoot_iff.1 hfinished
  have hrhs := ((hcharts.fits 0 item hmem).of_root hroot hlhs).1
  rw [Item.rhs_of_finished hpending] at hrhs
  obtain ⟨tree, hparsed, _⟩ := List.map_eq_singleton_iff.1 hrhs
  exact ⟨tree, by rw [Item.rootTree, hparsed]⟩

lemma oversized_of_stuck (hroot : g.root ∉ g.nonterminals) (hstart : g.start? = some start)
    {fault : Fault} {position : ℕ} {later : List Position}
    (hstuck : Stuck g limit start tokens fault position later) :
    fault = .addOverflow ∧ ∃ symbol shape, g.Reached symbol ∧ g.IsDerivation symbol shape ∧
      shape.yield.map some <:+: tokens ∧ shape.Oversized := by
  obtain ⟨item, hfollows, hfaults⟩ := exists_faults_of_build hstuck.fault
  have hkept := kept_proper hroot start tokens
  have hlater : ∀ finish, position < finish → ∀ item ∈ itemsAt later position finish,
      item.Proper g start tokens finish :=
    fun finish hfinish => hkept.of_charts hstuck.rest hfinish
  exact (hkept.of_follows hstuck.position_le hlater hfollows).oversized hstart hfaults

/-- From some limit on a parse comes to its end without being cut, unless a part of the input has a
derivation tree that is too large. -/
lemma exists_bound_of_unlooped (hunlooped : g.Unlooped) (hroot : g.root ∉ g.nonterminals)
    (tokens : List (Option Symbol)) :
    ∃ bound, ∀ limits : ParseLimits, bound ≤ limits.stateSize →
      (∃ parse, (g.parse limits tokens).outcome = .ok parse ∧ parse.truncated = false) ∨
      ((g.parse limits tokens).outcome = .error .addOverflow ∧
        ∃ symbol shape, g.Reached symbol ∧ g.IsDerivation symbol shape ∧
          shape.yield.map some <:+: tokens ∧ shape.Oversized) := by
  cases hstart : g.start? with
  | none =>
    refine ⟨0, fun limits _ => .inl ⟨{}, ?_, rfl⟩⟩
    rw [Grammar.parse, hstart]
    rfl
  | some start =>
    refine ⟨g.viewBound start tokens.length, fun limits hlimit => ?_⟩
    rw [Grammar.parse, hstart]
    simp only [Logged.outcome_bind]
    cases hchart : (g.chart limits.stateSize start tokens).outcome with
    | error fault =>
      right
      obtain ⟨position, later, hstuck⟩ := stuck_of_chart hchart
      obtain ⟨rfl, hoversized⟩ := oversized_of_stuck hroot hstart hstuck
      exact ⟨rfl, hoversized⟩
    | ok chart =>
      left
      have hcharts := charts_of_chart hchart
      obtain ⟨trees, htrees⟩ := exists_derivations hroot hcharts
      have huncut := uncut_of_charts hunlooped hroot hstart hcharts hlimit
      refine ⟨⟨trees, chart.any Position.cut⟩, ?_, ?_⟩
      · show (g.derivations chart >>= fun trees => _) = _
        rw [htrees]
        rfl
      · rw [List.any_eq_false]
        simpa using huncut

/-- When an analysis finds no unbounded ambiguity, every input has a limit from which on its
parse is not cut. All that can keep such a parse from its outcome is a derivation tree for a
part of the input that is too large, so where there is none every parse from that limit on is
complete. -/
theorem exists_sufficient_stateSize (hnames : g.NamesAll) :
    ∃ a, g.analysis = .ok a ∧ (a.unboundedAmbiguity = false → ∀ tokens, ∃ bound,
      (∀ limits : ParseLimits, bound ≤ limits.stateSize →
        (∃ parse, (g.parse limits tokens).outcome = .ok parse ∧ parse.truncated = false) ∨
        ((g.parse limits tokens).outcome = .error .addOverflow ∧
          ∃ symbol shape, g.Reached symbol ∧ g.IsDerivation symbol shape ∧
            shape.yield.map some <:+: tokens ∧ shape.Oversized)) ∧
      ((∀ symbol shape, g.Reached symbol → g.IsDerivation symbol shape →
          shape.yield.map some <:+: tokens → ¬ shape.Oversized) →
        ∀ limits : ParseLimits, bound ≤ limits.stateSize →
          ∃ parse, (g.parse limits tokens).outcome = .ok parse ∧ parse.truncated = false)) := by
  obtain ⟨a, hanalysis, hexplains⟩ := exists_analysis hnames.namesLeft
  refine ⟨a, hanalysis, fun hflag tokens => ?_⟩
  obtain ⟨bound, hbound⟩ :=
    exists_bound_of_unlooped (hexplains.unlooped hnames hflag) hnames.root_not_mem tokens
  refine ⟨bound, hbound, fun hfits limits hlimit => ?_⟩
  rcases hbound limits hlimit with hparse | ⟨_, symbol, shape, hreached, hderivation, hpart, hlarge⟩
  · exact hparse
  · exact absurd hlarge (hfits symbol shape hreached hderivation hpart)

/-- Two cyclic nonterminals that do no harm: `U`, which is reached and derives nothing, and `C`,
which is not reached. `S → A S b | U | c`, `A → a | `, `U → U | U A`, `C → C | c`. -/
def harmlessCycles : Grammar :=
  (((({} : Grammar).addAlternatives "S" "ASb|U|c").addAlternatives "A" "a|").addAlternatives
    "U" "U|UA").addAlternatives "C" "C|c"

/-- A small limit cuts the parse, a larger one does not, and from some limit on none does. -/
theorem exists_sufficient_harmlessCycles :
    harmlessCycles.NamesAll ∧
      (harmlessCycles.parseNames ⟨2⟩ ["c"]).outcome.map Parse.truncated = .ok true ∧
      (harmlessCycles.parseNames ⟨20⟩ ["c"]).outcome.map Parse.truncated = .ok false ∧
      ∃ a, harmlessCycles.analysis = .ok a ∧ a.unboundedAmbiguity = false ∧
        (∃ symbol, a.cyclic.contains symbol = true ∧ a.unreachable.contains symbol = false) ∧
        ∃ bound, (∀ limits : ParseLimits, bound ≤ limits.stateSize →
          (∃ parse, (harmlessCycles.parseNames limits ["c"]).outcome = .ok parse ∧
            parse.truncated = false) ∨
          ((harmlessCycles.parseNames limits ["c"]).outcome = .error .addOverflow ∧
            ∃ symbol shape, harmlessCycles.Reached symbol ∧
              harmlessCycles.IsDerivation symbol shape ∧
              shape.yield.map some <:+: ["c"].map harmlessCycles.symbol? ∧
              shape.Oversized)) ∧
          ((∀ symbol shape, harmlessCycles.Reached symbol →
              harmlessCycles.IsDerivation symbol shape →
              shape.yield.map some <:+: ["c"].map harmlessCycles.symbol? → ¬ shape.Oversized) →
            ∀ limits : ParseLimits, bound ≤ limits.stateSize →
              ∃ parse, (harmlessCycles.parseNames limits ["c"]).outcome = .ok parse ∧
                parse.truncated = false) := by
  have hnames : harmlessCycles.NamesAll := by
    rw [NamesAll]
    decide
  have hrun : harmlessCycles.analysis.map (fun a => (a.unboundedAmbiguity,
      a.cyclic.contains ⟨3⟩, a.unreachable.contains ⟨3⟩)) = .ok (false, true, false) := by cbv
  obtain ⟨a, hanalysis, hparses⟩ := exists_sufficient_stateSize hnames
  rw [hanalysis] at hrun
  obtain ⟨hflag, hcyclic, hreached⟩ := by simpa using Except.ok.inj hrun
  exact ⟨hnames, by cbv, by cbv, a, hanalysis, hflag, ⟨⟨3⟩, hcyclic, hreached⟩,
    hparses hflag (["c"].map harmlessCycles.symbol?)⟩

end Grammar

end ContextFree
