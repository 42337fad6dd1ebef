import ContextFree.Grammar.Text
import ContextFree.Proofs.Interning
import ContextFree.Proofs.Outcomes
import ContextFree.Proofs.Productions

/-!
# Grammars that were written down

A grammar is known from the edits it was made by. Its name table holds the names that were
mentioned, and its rules hold the productions that were added, collected by nonterminal; both
keep the order of first occurrence. Edits come in any order, and names are interned in between,
so a production is read with the table as it is in the end: a name that was met keeps its symbol.

A chain of rules adds what its rules add one by one.
-/
namespace ContextFree

/-- A production as it is written down: by names or by symbols. -/
inductive Draft
  | byName (lhs : String) (rhs : List String)
  | bySymbol (production : Production)

/-- What a draft means with a name table. -/
def Draft.Denotes (names : NameTable) : Draft → Production → Prop
  | .byName lhs rhs, production => names.symbol? lhs = some production.lhs ∧
      List.Forall₂ (fun name symbol => names.symbol? name = some symbol) rhs production.rhs
  | .bySymbol given, production => given = production

lemma Draft.Denotes.mono {table more : NameTable} (h : more.Extends table) {draft : Draft}
    {production : Production} (hdraft : draft.Denotes table production) :
    draft.Denotes more production := by
  cases draft with
  | byName lhs rhs =>
    obtain ⟨hlhs, hrhs⟩ := hdraft
    exact ⟨h.symbol? hlhs, hrhs.imp fun _ _ hsymbol => h.symbol? hsymbol⟩
  | bySymbol given => exact hdraft

/-- A change of a grammar. -/
inductive Edit
  /-- A name is interned. -/
  | name (name : String)
  | production (lhs : String) (rhs : List String)
  | alternatives (lhs text : String)
  | rule (production : Production)
  | chain (rules : List (String × List (List String)))

namespace Edit

/-- The names that an edit mentions, in the order in which they are interned. -/
def names : Edit → List String
  | name new => [new]
  | production lhs rhs => lhs :: rhs
  | alternatives lhs text =>
    (text.toList.splitOn alternativeSign).flatMap fun chars => lhs :: symbolNames chars
  | rule _ => []
  | chain rules => rules.flatMap fun rule => rule.1 :: rule.2.flatten

/-- The productions that an edit adds. -/
def drafts : Edit → List Draft
  | name _ => []
  | production lhs rhs => [.byName lhs rhs]
  | alternatives lhs text =>
    (text.toList.splitOn alternativeSign).map fun chars => .byName lhs (symbolNames chars)
  | rule added => [.bySymbol added]
  | chain rules => rules.flatMap fun rule => rule.2.map (.byName rule.1)

/-- The rule of a chain as edits of its own: its name is interned, and its alternatives are added
as productions. -/
def ofRule (rule : String × List (List String)) : List Edit :=
  name rule.1 :: rule.2.map (production rule.1)

/-- Only a production given by symbols is added by symbols. -/
lemma eq_rule_of_mem_drafts {edit : Edit} {production : Production}
    (h : .bySymbol production ∈ edit.drafts) : edit = rule production := by
  cases edit with
  | rule added =>
    obtain rfl := Draft.bySymbol.inj (List.mem_singleton.1 h)
    rfl
  | _ => simp [drafts] at h

end Edit

namespace Grammar

def edit (g : Grammar) : Edit → Grammar
  | .name name => (g.intern name).2
  | .production lhs rhs => g.addProduction lhs rhs
  | .alternatives lhs text => g.addAlternatives lhs text
  | .rule production => g.addRule production
  | .chain rules => g.addChain rules

/-- The grammar that is made by changes from the empty one. -/
def ofEdits (edits : List Edit) : Grammar := edits.foldl edit {}

/-! ### Productions collected by nonterminal -/

/-- The rules of a grammar are made of productions, in the order in which they were added. -/
structure Collects (g : Grammar) (added : List Production) : Prop where
  /-- Nonterminals stand in the order of their first production. -/
  nonterminals : g.nonterminals = (added.map Production.lhs).eraseDups
  alternatives : ∀ symbol, g.alternatives symbol =
    (added.filter fun production => production.lhs = symbol).map Production.rhs

namespace Collects

variable {g : Grammar} {added : List Production}

lemma empty : Collects {} [] where
  nonterminals := rfl
  alternatives _ := rfl

lemma of_rules_eq {g' : Grammar} (h : Collects g added) (hrules : g'.rules = g.rules) :
    Collects g' added := by
  obtain ⟨hnonterminals, halternatives⟩ := h
  constructor
  · rwa [Grammar.nonterminals, hrules]
  · intro symbol
    rw [← halternatives, Grammar.alternatives, alternatives?, hrules]
    rfl

lemma addRule (h : Collects g added) (production : Production) :
    Collects (g.addRule production) (added ++ [production]) where
  nonterminals := by
    have hadd : (g.addRule production).nonterminals = if production.lhs ∈ g.nonterminals then
        g.nonterminals else g.nonterminals ++ [production.lhs] :=
      Rule.map_lhs_add g.rules production
    rw [hadd, List.map_append, List.map_singleton, eraseDups_concat, h.nonterminals]
    simp only [List.mem_eraseDups]
  alternatives := by
    intro symbol
    have hadd := Rule.alternatives_add g.rules production symbol
    have hbefore := h.alternatives symbol
    rw [Grammar.alternatives, alternatives?] at hbefore ⊢
    rw [List.filter_append, List.map_append, List.filter_singleton, ← hbefore]
    refine hadd.trans ?_
    by_cases hsymbol : production.lhs = symbol
    · simp [hsymbol]
    · simp [hsymbol]

lemma mem_nonterminals_iff (h : Collects g added) {symbol : Symbol} :
    symbol ∈ g.nonterminals ↔ symbol ∈ added.map Production.lhs := by
  rw [h.nonterminals, List.mem_eraseDups]

lemma start?_eq (h : Collects g added) : g.start? = added.head?.map Production.lhs := by
  rw [start?, h.nonterminals]
  cases added with
  | nil => rfl
  | cons production added => rw [List.map_cons, List.eraseDups_cons]; rfl

lemma alternatives?_eq (h : Collects g added) (symbol : Symbol) :
    g.alternatives? symbol = if symbol ∈ added.map Production.lhs then
      some ((added.filter fun production => production.lhs = symbol).map Production.rhs)
    else none := by
  have halternatives := h.alternatives symbol
  by_cases hsymbol : symbol ∈ added.map Production.lhs
  · obtain ⟨rhss, hrhss⟩ := Option.isSome_iff_exists.1
      (isSome_alternatives?.2 (h.mem_nonterminals_iff.2 hsymbol))
    rw [Grammar.alternatives, hrhss, Option.getD_some] at halternatives
    rw [hrhss, if_pos hsymbol, halternatives]
  · rw [if_neg hsymbol, ← Option.not_isSome_iff_eq_none, isSome_alternatives?,
      h.mem_nonterminals_iff]
    exact hsymbol

/-- Productions are grouped by nonterminal, and each group keeps its order. -/
lemma productions_eq (h : Collects g added) :
    g.productions = g.nonterminals.flatMap fun symbol =>
      added.filter fun production => production.lhs = symbol := by
  rw [productions, Grammar.nonterminals, List.flatMap_map]
  apply List.flatMap_congr
  intro rule hrule
  rw [Rule.productions, ← alternatives_of_mem_rules hrule, h.alternatives, List.map_map]
  apply (List.map_congr_left ?_).trans (List.map_id _)
  intro production hproduction
  have hlhs : production.lhs = rule.lhs := of_decide_eq_true (List.mem_filter.1 hproduction).2
  rw [Function.comp_apply, ← hlhs, id]

lemma mem_of_mem_productions (h : Collects g added) {production : Production}
    (hproduction : production ∈ g.productions) : production ∈ added := by
  rw [h.productions_eq] at hproduction
  obtain ⟨symbol, _, hmem⟩ := List.mem_flatMap.1 hproduction
  exact List.mem_of_mem_filter hmem

end Collects

/-! ### What is known of a grammar from its edits -/

variable {g : Grammar} {names : List String} {drafts : List Draft}

/-- A grammar holds the names that were mentioned and the productions that were added. -/
structure Records (g : Grammar) (names : List String) (drafts : List Draft) : Prop where
  names : g.names.entries = names.eraseDups
  added : ∃ added, List.Forall₂ (Draft.Denotes g.names) drafts added ∧ g.Collects added

namespace Records

lemma empty : Records {} [] [] where
  names := rfl
  added := ⟨[], .nil, .empty⟩

lemma intern (h : Records g names drafts) (name : String) :
    Records (g.intern name).2 (names ++ [name]) drafts where
  names := NameTable.entries_intern_of_seen h.names name
  added := by
    obtain ⟨added, hdrafts, hcollects⟩ := h.added
    refine ⟨added, hdrafts.imp fun _ _ hdraft => ?_, hcollects.of_rules_eq rfl⟩
    exact hdraft.mono (NameTable.extends_intern g.names name)

lemma addRule (h : Records g names drafts) (production : Production) :
    Records (g.addRule production) names (drafts ++ [.bySymbol production]) where
  names := h.names
  added := by
    obtain ⟨added, hdrafts, hcollects⟩ := h.added
    have hnew : List.Forall₂ (Draft.Denotes g.names) [.bySymbol production] [production] :=
      .cons rfl .nil
    exact ⟨added ++ [production], List.rel_append hdrafts hnew, hcollects.addRule production⟩

end Records

/-- A builder stands at the rule of a name. -/
structure Builds (b : RuleBuilder) (lhs : String) (names : List String) (drafts : List Draft) :
    Prop where
  lhs : b.grammar.symbol? lhs = some b.lhs
  records : Records b.grammar names drafts

lemma Records.rule (h : Records g names drafts) (lhs : String) :
    Builds (g.rule lhs) lhs (names ++ [lhs]) drafts where
  lhs := NameTable.symbol?_intern g.names lhs
  records := h.intern lhs

namespace Builds

variable {b : RuleBuilder} {lhs : String}

lemma rhs (h : Builds b lhs names drafts) (rhs : List String) :
    Builds (b.rhs rhs) lhs (names ++ rhs) (drafts ++ [.byName lhs rhs]) := by
  have hextends := NameTable.extends_internAll b.grammar.names rhs
  refine ⟨hextends.symbol? h.lhs, NameTable.entries_internAll_of_seen h.records.names rhs, ?_⟩
  obtain ⟨added, hdrafts, hcollects⟩ := h.records.added
  let production : Production := ⟨b.lhs, (b.grammar.names.internAll rhs).1⟩
  have hadded : (b.rhs rhs).grammar.Collects (added ++ [production]) :=
    Collects.addRule (g := { b.grammar with names := (b.grammar.names.internAll rhs).2 })
      (hcollects.of_rules_eq rfl) production
  have hnew : List.Forall₂ (Draft.Denotes (b.rhs rhs).grammar.names) [.byName lhs rhs]
      [production] :=
    .cons ⟨hextends.symbol? h.lhs, NameTable.symbol?_internAll b.grammar.names rhs⟩ .nil
  refine ⟨added ++ [production], ?_, hadded⟩
  exact List.rel_append (hdrafts.imp fun _ _ hdraft => hdraft.mono hextends) hnew

lemma foldl_rhs (h : Builds b lhs names drafts) (rhss : List (List String)) :
    Builds (rhss.foldl RuleBuilder.rhs b) lhs (names ++ rhss.flatten)
      (drafts ++ rhss.map (.byName lhs)) := by
  induction rhss generalizing b names drafts with
  | nil => simpa using h
  | cons rhs rhss ih => simpa using ih (h.rhs rhs)

end Builds

namespace Records

lemma addProduction (h : Records g names drafts) (lhs : String) (rhs : List String) :
    Records (g.addProduction lhs rhs) (names ++ lhs :: rhs) (drafts ++ [.byName lhs rhs]) := by
  have hrule := ((h.rule lhs).rhs rhs).records
  rwa [List.append_assoc, List.singleton_append] at hrule

/-- The rules of a chain are written down one after another. -/
lemma chain {b : RuleBuilder} (h : Records b.grammar names drafts)
    (rules : List (String × List (List String))) :
    Records (rules.foldl (fun b next => next.2.foldl RuleBuilder.rhs (b.rule next.1)) b).grammar
      (names ++ (Edit.chain rules).names) (drafts ++ (Edit.chain rules).drafts) := by
  induction rules generalizing b names drafts with
  | nil => simpa [Edit.names, Edit.drafts] using h
  | cons rule rules ih =>
    have hrule : Records (rule.2.foldl RuleBuilder.rhs (b.rule rule.1)).grammar _ _ :=
      ((h.rule rule.1).foldl_rhs rule.2).records
    simpa [Edit.names, Edit.drafts] using ih hrule

lemma addAlternatives (h : Records g names drafts) (lhs text : String) :
    Records (g.addAlternatives lhs text) (names ++ (Edit.alternatives lhs text).names)
      (drafts ++ (Edit.alternatives lhs text).drafts) := by
  rw [Grammar.addAlternatives, Edit.names, Edit.drafts]
  induction text.toList.splitOn alternativeSign generalizing g names drafts with
  | nil => simpa using h
  | cons chars rest ih => simpa using ih (h.addProduction lhs (symbolNames chars))

theorem edit (h : Records g names drafts) (edit : Edit) :
    Records (g.edit edit) (names ++ edit.names) (drafts ++ edit.drafts) := by
  cases edit with
  | name name => simpa [Grammar.edit, Edit.names, Edit.drafts] using h.intern name
  | production lhs rhs => exact h.addProduction lhs rhs
  | alternatives lhs text => exact h.addAlternatives lhs text
  | rule production => simpa [Grammar.edit, Edit.names, Edit.drafts] using h.addRule production
  | chain rules =>
    cases rules with
    | nil => simpa [Grammar.edit, addChain, Edit.names, Edit.drafts] using h
    | cons first more =>
      have hfirst := ((h.rule first.1).foldl_rhs first.2).records
      simpa [Grammar.edit, addChain, Edit.names, Edit.drafts] using hfirst.chain more

theorem foldl_edit (h : Records g names drafts) (edits : List Edit) :
    Records (edits.foldl Grammar.edit g) (names ++ edits.flatMap Edit.names)
      (drafts ++ edits.flatMap Edit.drafts) := by
  induction edits generalizing g names drafts with
  | nil => simpa using h
  | cons edit edits ih => simpa using ih (h.edit edit)

lemma namesAll (h : Records g names drafts)
    (hnamed : ∀ production, .bySymbol production ∉ drafts) : g.NamesAll := by
  obtain ⟨added, hdrafts, hcollects⟩ := h.added
  have hlt : ∀ {name : String} {symbol : Symbol}, g.names.symbol? name = some symbol →
      symbol.id < g.symbolCount := fun hsymbol =>
    NameTable.isSome_name?.1 (Option.isSome_iff_exists.2 ⟨_, NameTable.symbol?_eq_some hsymbol⟩)
  intro production hproduction
  obtain ⟨draft, hdraft, hdenotes⟩ :=
    exists_left_of_forall₂ hdrafts production (hcollects.mem_of_mem_productions hproduction)
  cases draft with
  | byName lhs rhs =>
    refine ⟨hlt hdenotes.1, fun symbol hsymbol => ?_⟩
    obtain ⟨name, _, hname⟩ := exists_left_of_forall₂ hdenotes.2 symbol hsymbol
    exact hlt hname
  | bySymbol given => exact absurd hdraft (hnamed given)

end Records

lemma records_ofEdits (edits : List Edit) :
    Records (ofEdits edits) (edits.flatMap Edit.names) (edits.flatMap Edit.drafts) :=
  Records.empty.foldl_edit edits

/-- Later edits only add names at the end of the table. -/
lemma extends_ofEdits (edits later : List Edit) :
    (ofEdits (edits ++ later)).names.Extends (ofEdits edits).names := by
  rw [NameTable.Extends, (records_ofEdits edits).names, (records_ofEdits (edits ++ later)).names,
    List.flatMap_append, List.eraseDups_append]
  exact List.prefix_append _ _

/-! ### Chains -/

/-- An alternative is a production of the name that the builder stands at. -/
lemma grammar_rhs {b : RuleBuilder} {lhs : String} (h : b.grammar.symbol? lhs = some b.lhs)
    (rhs : List String) : (b.rhs rhs).grammar = b.grammar.addProduction lhs rhs := by
  rw [addProduction, NameTable.intern_of_known h]
  rfl

lemma grammar_foldl_rhs {b : RuleBuilder} {lhs : String}
    (h : b.grammar.symbol? lhs = some b.lhs) (rhss : List (List String)) :
    (rhss.foldl RuleBuilder.rhs b).grammar =
      (rhss.map (Edit.production lhs)).foldl edit b.grammar := by
  induction rhss generalizing b with
  | nil => rfl
  | cons rhs rhss ih =>
    have hnext : (b.rhs rhs).grammar.symbol? lhs = some (b.rhs rhs).lhs :=
      (NameTable.extends_internAll b.grammar.names rhs).symbol? h
    rw [List.foldl_cons, ih hnext, grammar_rhs h]
    rfl

lemma grammar_foldl_rule (g : Grammar) (rule : String × List (List String)) :
    (rule.2.foldl RuleBuilder.rhs (g.rule rule.1)).grammar = (Edit.ofRule rule).foldl edit g := by
  have hlhs : (g.rule rule.1).grammar.symbol? rule.1 = some (g.rule rule.1).lhs :=
    NameTable.symbol?_intern g.names rule.1
  exact grammar_foldl_rhs hlhs rule.2

lemma grammar_foldl_rules (b : RuleBuilder) (rules : List (String × List (List String))) :
    (rules.foldl (fun b next => next.2.foldl RuleBuilder.rhs (b.rule next.1)) b).grammar =
      (rules.flatMap Edit.ofRule).foldl edit b.grammar := by
  induction rules generalizing b with
  | nil => rfl
  | cons rule rules ih =>
    rw [List.foldl_cons, ih, List.flatMap_cons, List.foldl_append, RuleBuilder.rule,
      grammar_foldl_rule]

/-- A chain is its rules, one after another. -/
lemma edit_chain (g : Grammar) (rules : List (String × List (List String))) :
    g.edit (.chain rules) = (rules.flatMap Edit.ofRule).foldl edit g := by
  cases rules with
  | nil => rfl
  | cons first more =>
    rw [List.flatMap_cons, List.foldl_append, ← grammar_foldl_rule]
    exact grammar_foldl_rules _ more

/-- What a grammar is after any edits. Its rules are the productions that were added, its table
holds the names that were mentioned, both in order of first occurrence. Symbols and names are
inverse to each other, and a name stays with its symbol. A chain adds what its rules add one by
one, and unless a production was given by symbols, every symbol has a name. -/
theorem grammar_ofEdits (edits : List Edit) :
    (∃ added, List.Forall₂ (Draft.Denotes (ofEdits edits).names) (edits.flatMap Edit.drafts) added ∧
      (ofEdits edits).nonterminals = (added.map Production.lhs).eraseDups ∧
      (ofEdits edits).start? = added.head?.map Production.lhs ∧
      (∀ symbol, (ofEdits edits).alternatives? symbol =
        if symbol ∈ added.map Production.lhs then
          some ((added.filter fun production => production.lhs = symbol).map Production.rhs)
        else none) ∧
      (ofEdits edits).productions = (ofEdits edits).nonterminals.flatMap fun symbol =>
        added.filter fun production => production.lhs = symbol) ∧
    ((ofEdits edits).names.entries = (edits.flatMap Edit.names).eraseDups ∧
      (ofEdits edits).names.entries.Nodup ∧
      (∀ symbol, symbol.id < (ofEdits edits).symbolCount →
        ∃ name, (ofEdits edits).name? symbol = some name ∧
          (ofEdits edits).symbol? name = some symbol) ∧
      (∀ name ∈ edits.flatMap Edit.names, ∃ symbol,
        (ofEdits edits).symbol? name = some symbol ∧ (ofEdits edits).name? symbol = some name) ∧
      (∀ name, ((ofEdits edits).edit (.name name)).name? ((ofEdits edits).intern name).1 =
        some name) ∧
      (∀ later symbol name, (ofEdits edits).name? symbol = some name →
        (ofEdits (edits ++ later)).name? symbol = some name) ∧
      (ofEdits edits).name? (ofEdits edits).fresh = none) ∧
    (∀ rules, (ofEdits edits).edit (.chain rules) =
      (rules.flatMap Edit.ofRule).foldl edit (ofEdits edits)) ∧
    ((∀ production, .rule production ∉ edits) → (ofEdits edits).NamesAll) := by
  have hrecords := records_ofEdits edits
  obtain ⟨added, hdrafts, hcollects⟩ := hrecords.added
  refine ⟨⟨added, hdrafts, hcollects.nonterminals, hcollects.start?_eq, hcollects.alternatives?_eq,
    hcollects.productions_eq⟩, ⟨hrecords.names, hrecords.names ▸ nodup_eraseDups _, ?_, ?_, ?_, ?_,
    NameTable.name?_fresh _⟩, edit_chain _, ?_⟩
  · intro symbol hsymbol
    obtain ⟨name, hname⟩ := Option.isSome_iff_exists.1 (NameTable.isSome_name?.2 hsymbol)
    exact ⟨name, hname, NameTable.symbol?_eq_some_iff.2 hname⟩
  · intro name hname
    rw [← List.mem_eraseDups, ← hrecords.names] at hname
    obtain ⟨symbol, hsymbol⟩ := NameTable.exists_symbol? hname
    exact ⟨symbol, hsymbol, NameTable.symbol?_eq_some hsymbol⟩
  · intro name
    exact NameTable.name?_intern (ofEdits edits).names name
  · intro later symbol name hname
    exact (extends_ofEdits edits later).name? hname
  · intro hplain
    apply hrecords.namesAll
    intro production hdraft
    obtain ⟨edit, hedit, hmem⟩ := List.mem_flatMap.1 hdraft
    rw [Edit.eq_rule_of_mem_drafts hmem] at hedit
    exact hplain production hedit

/-- Names, a chain with a rule that has no alternative, a text and a production. -/
def patchwork : List Edit :=
  [.name "x", .chain [("S", [["a", "A"]]), ("A", [["b"], []]), ("B", [])], .alternatives "S" "A|",
    .production "A" ["c"]]

/-- A production of a symbol beyond the table, and an alternative for the rule that had none. -/
def patches : List Edit := [.rule ⟨⟨9⟩, [⟨0⟩]⟩, .production "B" []]

/-- `A` is the fourth name and stays so, and all symbols have names until the patches come. -/
theorem grammar_ofEdits_patchwork :
    (⟨3⟩ : Symbol).id < (ofEdits patchwork).symbolCount ∧
      (∃ name, (ofEdits patchwork).name? ⟨3⟩ = some name ∧
        (ofEdits patchwork).symbol? name = some ⟨3⟩) ∧
      "B" ∈ patchwork.flatMap Edit.names ∧
      (∃ symbol, (ofEdits patchwork).symbol? "B" = some symbol ∧
        (ofEdits patchwork).name? symbol = some "B") ∧
      (ofEdits patchwork).name? ⟨3⟩ = some "A" ∧
      (ofEdits (patchwork ++ patches)).name? ⟨3⟩ = some "A" ∧
      (∀ production, .rule production ∉ patchwork) ∧ (ofEdits patchwork).NamesAll ∧
      (ofEdits (patchwork ++ patches)).nonterminals = [⟨1⟩, ⟨3⟩, ⟨9⟩, ⟨5⟩] := by
  obtain ⟨_, ⟨_, _, hsymbols, hnames, _, hlater, _⟩, _, hall⟩ := grammar_ofEdits patchwork
  have hcount : (⟨3⟩ : Symbol).id < (ofEdits patchwork).symbolCount := by decide +kernel
  have hmem : "B" ∈ patchwork.flatMap Edit.names := by decide +kernel
  have hname : (ofEdits patchwork).name? ⟨3⟩ = some "A" := by decide +kernel
  have hplain : ∀ production, .rule production ∉ patchwork := by simp [patchwork]
  exact ⟨hcount, hsymbols ⟨3⟩ hcount, hmem, hnames "B" hmem, hname,
    hlater patches ⟨3⟩ "A" hname, hplain, hall hplain, by decide +kernel⟩

end Grammar

end ContextFree
