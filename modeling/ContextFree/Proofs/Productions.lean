import ContextFree.Derivation
import Mathlib.Data.List.Nodup
import Mathlib.Tactic.Lemma

/-!
# Looking productions up

A nonterminal has a single rule, so the alternatives that are looked up for it are all of its
productions. What a parser predicts and what an enumerator combines are stated below as
membership in the list of productions; the rules themselves are not mentioned again.
-/
namespace ContextFree

/-- What stands around a symbol of a row is in the row. -/
lemma mem_of_mem_around {α : Type} {a b : α} {before after : List α} (h : b ∈ before ++ after) :
    b ∈ before ++ a :: after :=
  ((List.sublist_cons_self a after).append_left before).subset h

lemma Rule.alternatives_add (rules : List Rule) (production : Production) (symbol : Symbol) :
    (((Rule.add rules production).find? fun rule => rule.lhs = symbol).map
        Rule.alternatives).getD [] =
      ((rules.find? fun rule => rule.lhs = symbol).map Rule.alternatives).getD [] ++
        if production.lhs = symbol then [production.rhs] else [] := by
  induction rules with
  | nil =>
    rw [Rule.add, List.find?_singleton]
    by_cases hsymbol : production.lhs = symbol
    · simp [hsymbol]
    · simp [hsymbol]
  | cons rule rules ih =>
    by_cases hrule : rule.lhs = symbol
    · by_cases hlhs : symbol = production.lhs
      · simp [Rule.add, hrule, hlhs]
      · simp [Rule.add, hrule, hlhs, Ne.symm hlhs]
    · by_cases hlhs : rule.lhs = production.lhs
      · have hsymbol : production.lhs ≠ symbol := hlhs ▸ hrule
        simp [Rule.add, hlhs, hsymbol]
      · simpa [Rule.add, hlhs, hrule] using ih

namespace Grammar

variable {g : Grammar} {symbol : Symbol} {rhs : List Symbol}

lemma rule_eq_of_lhs_eq {a b : Rule} (ha : a ∈ g.rules) (hb : b ∈ g.rules)
    (h : a.lhs = b.lhs) : a = b :=
  List.inj_on_of_nodup_map g.distinct ha hb h

theorem alternatives?_eq_some_iff {rhss : List (List Symbol)} :
    g.alternatives? symbol = some rhss ↔
      ∃ rule ∈ g.rules, rule.lhs = symbol ∧ rule.alternatives = rhss := by
  simp only [alternatives?, Option.map_eq_some_iff]
  constructor
  · rintro ⟨rule, hfind, rfl⟩
    exact ⟨rule, List.mem_of_find?_eq_some hfind, by simpa using List.find?_some hfind, rfl⟩
  · rintro ⟨rule, hrule, rfl, rfl⟩
    cases hfind : g.rules.find? fun other => other.lhs = rule.lhs with
    | none => simpa using List.find?_eq_none.1 hfind rule hrule
    | some other =>
      have hlhs : other.lhs = rule.lhs := by simpa using List.find?_some hfind
      have hother := List.mem_of_find?_eq_some hfind
      exact ⟨other, rfl, by rw [rule_eq_of_lhs_eq hother hrule hlhs]⟩

lemma alternatives_of_mem_rules {rule : Rule} (h : rule ∈ g.rules) :
    g.alternatives rule.lhs = rule.alternatives := by
  rw [alternatives, alternatives?_eq_some_iff.2 ⟨rule, h, rfl, rfl⟩, Option.getD_some]

theorem mem_alternatives : rhs ∈ g.alternatives symbol ↔ ⟨symbol, rhs⟩ ∈ g.productions := by
  rw [mem_productions, alternatives]
  cases h : g.alternatives? symbol with
  | none =>
    have hterminal : symbol ∉ g.nonterminals := by simp [← isSome_alternatives?, h]
    simp only [Option.getD_none, List.not_mem_nil, false_iff]
    rintro ⟨rule, hrule, hlhs, _⟩
    exact hterminal (mem_nonterminals.2 ⟨rule, hrule, hlhs⟩)
  | some rhss =>
    obtain ⟨rule, hrule, hlhs, rfl⟩ := alternatives?_eq_some_iff.1 h
    constructor
    · intro hrhs
      exact ⟨rule, hrule, hlhs, hrhs⟩
    · rintro ⟨other, hother, hlhs', hrhs⟩
      rwa [rule_eq_of_lhs_eq hrule hother (hlhs.trans hlhs'.symm)]

lemma lhs_mem_nonterminals {production : Production} (h : production ∈ g.productions) :
    production.lhs ∈ g.nonterminals :=
  mem_nonterminals_iff.2 ⟨production.rhs, h⟩

lemma start_mem_nonterminals (h : g.start? = some symbol) : symbol ∈ g.nonterminals :=
  List.mem_of_mem_head? h

end Grammar

end ContextFree
