import ContextFree.Symbol

/-!
# Context-free grammars

A grammar is a name table and a list of rules. A rule is a nonterminal with its alternatives,
and rules stand in the order in which their nonterminals were first defined. A nonterminal has
one rule, and a rule has an alternative. The nonterminal of the first rule is the start symbol,
and a symbol without a rule is a terminal. Symbols beyond the name table are allowed on either
side of a rule.
-/
namespace ContextFree

/-- A nonterminal with its alternatives, in the order in which they were added. -/
structure Rule where
  lhs : Symbol
  alternatives : List (List Symbol)
  deriving DecidableEq

/-- One alternative of a nonterminal. -/
structure Production where
  lhs : Symbol
  rhs : List Symbol
  deriving DecidableEq

theorem Rule.alternatives_ne_nil_of_mem_nil :
    ∀ rule ∈ ([] : List Rule), rule.alternatives ≠ [] := by simp

structure Grammar where
  names : NameTable := {}
  rules : List Rule := []
  /-- No two rules are for one nonterminal. -/
  distinct : (rules.map Rule.lhs).Nodup := by exact List.nodup_nil
  inhabited : ∀ rule ∈ rules, rule.alternatives ≠ [] := by exact Rule.alternatives_ne_nil_of_mem_nil
  deriving DecidableEq

namespace Rule

def productions (rule : Rule) : List Production :=
  rule.alternatives.map fun rhs => ⟨rule.lhs, rhs⟩

/-- Appends a production to the rule of its nonterminal, which is created at the end of the
list if there is none. -/
def add (rules : List Rule) (production : Production) : List Rule :=
  match rules with
  | [] => [⟨production.lhs, [production.rhs]⟩]
  | rule :: rules =>
    if rule.lhs = production.lhs then
      { rule with alternatives := rule.alternatives ++ [production.rhs] } :: rules
    else
      rule :: add rules production

theorem map_lhs_add (rules : List Rule) (production : Production) :
    (add rules production).map lhs =
      if production.lhs ∈ rules.map lhs then rules.map lhs
      else rules.map lhs ++ [production.lhs] := by
  induction rules with
  | nil => rfl
  | cons rule rules ih =>
    by_cases h : rule.lhs = production.lhs
    · simp [add, h]
    · rw [add, if_neg h, List.map_cons, ih]
      by_cases hmem : production.lhs ∈ rules.map lhs
      · simp [hmem]
      · simp [hmem, Ne.symm h]

theorem nodup_map_lhs_add {rules : List Rule} (h : (rules.map lhs).Nodup)
    (production : Production) : ((add rules production).map lhs).Nodup := by
  rw [map_lhs_add]
  split
  · exact h
  · next hnew =>
    refine List.nodup_append.2 ⟨h, by simp, ?_⟩
    intro known hknown new hsingle heq
    rw [List.mem_singleton.1 hsingle] at heq
    exact hnew (heq ▸ hknown)

theorem alternatives_ne_nil_of_mem_add {rules : List Rule}
    (h : ∀ rule ∈ rules, rule.alternatives ≠ []) (production : Production) :
    ∀ rule ∈ add rules production, rule.alternatives ≠ [] := by
  induction rules with
  | nil => simp [add]
  | cons first rules ih =>
    obtain ⟨hfirst, hrules⟩ := List.forall_mem_cons.1 h
    by_cases hlhs : first.lhs = production.lhs
    · rw [add, if_pos hlhs]
      exact List.forall_mem_cons.2 ⟨by simp, hrules⟩
    · rw [add, if_neg hlhs]
      exact List.forall_mem_cons.2 ⟨hfirst, ih hrules⟩

end Rule

namespace Grammar

def symbol? (g : Grammar) (name : String) : Option Symbol := g.names.symbol? name

def name? (g : Grammar) (symbol : Symbol) : Option String := g.names.name? symbol

/-- The name of a symbol, or the given text for a symbol without a name. -/
def nameOr (g : Grammar) (unnamed : String) (symbol : Symbol) : String :=
  (g.name? symbol).getD unnamed

/-- The number of named symbols, terminals included. -/
def symbolCount (g : Grammar) : Nat := g.names.size

def fresh (g : Grammar) : Symbol := g.names.fresh

/-- Nonterminals in order of definition. -/
def nonterminals (g : Grammar) : List Symbol := g.rules.map Rule.lhs

/-- The start symbol: the nonterminal of the first rule. -/
def start? (g : Grammar) : Option Symbol := g.nonterminals.head?

/-- The alternatives of a nonterminal, or nothing for a terminal. -/
def alternatives? (g : Grammar) (symbol : Symbol) : Option (List (List Symbol)) :=
  (g.rules.find? fun rule => rule.lhs = symbol).map Rule.alternatives

/-- The alternatives of a symbol; a terminal has none. -/
def alternatives (g : Grammar) (symbol : Symbol) : List (List Symbol) :=
  (g.alternatives? symbol).getD []

/-- Whether a symbol has a rule. -/
def isNonterminal (g : Grammar) (symbol : Symbol) : Bool :=
  g.rules.any fun rule => rule.lhs = symbol

/-- All productions, grouped by nonterminal. -/
def productions (g : Grammar) : List Production := g.rules.flatMap Rule.productions

def intern (g : Grammar) (name : String) : Symbol × Grammar :=
  let (symbol, names) := g.names.intern name
  (symbol, { g with names })

def addRule (g : Grammar) (production : Production) : Grammar :=
  { g with
    rules := Rule.add g.rules production
    distinct := Rule.nodup_map_lhs_add g.distinct production
    inhabited := Rule.alternatives_ne_nil_of_mem_add g.inhabited production }

theorem nameOr_eq {g : Grammar} {symbol : Symbol} {name : String}
    (h : g.name? symbol = some name) (unnamed : String) : g.nameOr unnamed symbol = name := by
  rw [nameOr, h, Option.getD_some]

theorem mem_nonterminals {g : Grammar} {symbol : Symbol} :
    symbol ∈ g.nonterminals ↔ ∃ rule ∈ g.rules, rule.lhs = symbol := by
  simp [nonterminals]

@[simp] theorem isNonterminal_iff {g : Grammar} {symbol : Symbol} :
    g.isNonterminal symbol = true ↔ symbol ∈ g.nonterminals := by
  simp [isNonterminal, nonterminals]

theorem isSome_alternatives? {g : Grammar} {symbol : Symbol} :
    (g.alternatives? symbol).isSome = true ↔ symbol ∈ g.nonterminals := by
  simp [alternatives?, mem_nonterminals]

theorem mem_productions {g : Grammar} {production : Production} :
    production ∈ g.productions ↔
      ∃ rule ∈ g.rules, rule.lhs = production.lhs ∧ production.rhs ∈ rule.alternatives := by
  cases production
  simp only [productions, Rule.productions, List.mem_flatMap, List.mem_map, Production.mk.injEq]
  constructor
  · rintro ⟨rule, hrule, rhs, hrhs, rfl, rfl⟩
    exact ⟨rule, hrule, rfl, hrhs⟩
  · rintro ⟨rule, hrule, rfl, hrhs⟩
    exact ⟨rule, hrule, _, hrhs, rfl, rfl⟩

theorem mem_nonterminals_iff {g : Grammar} {symbol : Symbol} :
    symbol ∈ g.nonterminals ↔ ∃ rhs, ⟨symbol, rhs⟩ ∈ g.productions := by
  simp only [mem_productions, mem_nonterminals]
  constructor
  · rintro ⟨rule, hrule, hlhs⟩
    obtain ⟨rhs, hrhs⟩ := List.exists_mem_of_ne_nil _ (g.inhabited rule hrule)
    exact ⟨rhs, rule, hrule, hlhs, hrhs⟩
  · rintro ⟨rhs, rule, hrule, hlhs, _⟩
    exact ⟨rule, hrule, hlhs⟩

end Grammar

end ContextFree
