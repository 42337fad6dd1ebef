import ContextFree.Proofs.Spreading

/-!
# Reachable and cyclic nonterminals

A nonterminal mentions the nonterminals in its productions. The start symbol leads to another
nonterminal by mentions exactly when a sentential form of it contains the other one. A
nonterminal passes its sentence on to a symbol when everything around the symbol in a production
vanishes; it is cyclic when its sentence comes back to it in this way.

The four sets of an analysis are then known, for every grammar whose left-hand sides have names.
-/
namespace ContextFree

open Relation

namespace Grammar

variable {g : Grammar} {symbol other start : Symbol}

/-- A nonterminal has another one in a production. -/
def Mentions (g : Grammar) (symbol other : Symbol) : Prop :=
  other ∈ g.nonterminals ∧ ∃ rhs, ⟨symbol, rhs⟩ ∈ g.productions ∧ other ∈ rhs

lemma mem_mentioned : other ∈ g.mentioned symbol ↔ g.Mentions symbol other := by
  simp only [mentioned, List.mem_filter, List.mem_flatten, mem_alternatives, isNonterminal_iff]
  constructor
  · rintro ⟨hother, hnonterminal⟩
    exact ⟨hnonterminal, hother⟩
  · rintro ⟨hnonterminal, hother⟩
    exact ⟨hother, hnonterminal⟩

/-- A symbol is reached when a sentential form of the start symbol contains it. -/
def Reached (g : Grammar) (symbol : Symbol) : Prop :=
  ∃ start form, g.start? = some start ∧ ReflTransGen g.Rewrites [start] form ∧ symbol ∈ form

/-- The nonterminals in a sentential form are led to by mentions. -/
lemma mentions_of_rewrites {form : List Symbol} (h : ReflTransGen g.Rewrites [start] form) :
    ∀ symbol ∈ form, symbol ∈ g.nonterminals → ReflTransGen g.Mentions start symbol := by
  induction h with
  | refl =>
    intro symbol hsymbol _
    rw [List.mem_singleton.1 hsymbol]
  | tail _ hstep ih =>
    obtain ⟨before, ⟨lhs, rhs⟩, after, hproduction⟩ := hstep
    intro symbol hsymbol hnonterminal
    rw [List.mem_append, List.mem_append] at hsymbol
    have hlhs : ReflTransGen g.Mentions start lhs :=
      ih lhs (by simp) (lhs_mem_nonterminals hproduction)
    rcases hsymbol with (hbefore | hrhs) | hafter
    · exact ih symbol (by simp [hbefore]) hnonterminal
    · exact hlhs.tail ⟨hnonterminal, rhs, hproduction, hrhs⟩
    · exact ih symbol (by simp [hafter]) hnonterminal

lemma rewrites_of_mentions (h : ReflTransGen g.Mentions start symbol) :
    ∃ form, ReflTransGen g.Rewrites [start] form ∧ symbol ∈ form := by
  induction h with
  | refl => exact ⟨[start], .refl, by simp⟩
  | tail _ hstep ih =>
    obtain ⟨form, hform, hmem⟩ := ih
    obtain ⟨_, rhs, hproduction, hrhs⟩ := hstep
    obtain ⟨before, after, rfl⟩ := List.append_of_mem hmem
    exact ⟨before ++ rhs ++ after, hform.tail (.step before ⟨_, rhs⟩ after hproduction),
      by simp [hrhs]⟩

lemma reached_iff (hsymbol : symbol ∈ g.nonterminals) :
    g.Reached symbol ↔ ∃ start, g.start? = some start ∧ ReflTransGen g.Mentions start symbol := by
  constructor
  · rintro ⟨start, form, hstart, hform, hmem⟩
    exact ⟨start, hstart, mentions_of_rewrites hform symbol hmem hsymbol⟩
  · rintro ⟨start, hstart, hmentions⟩
    obtain ⟨form, hform, hmem⟩ := rewrites_of_mentions hmentions
    exact ⟨start, form, hstart, hform, hmem⟩

/-- What mentions lead to from a nonterminal are nonterminals. -/
lemma mem_nonterminals_of_mentions (hstart : start ∈ g.nonterminals)
    (h : ReflTransGen g.Mentions start symbol) : symbol ∈ g.nonterminals := by
  rcases h.cases_tail with rfl | ⟨_, _, hlast⟩
  · exact hstart
  · exact hlast.1

theorem exists_unreachableSet (hnames : g.NamesLeft) :
    ∃ s, g.unreachableSet = .ok s ∧
      s.Marks g.symbolCount fun symbol => symbol ∈ g.nonterminals ∧ ¬ g.Reached symbol := by
  have hmentioned : (fun a b => b ∈ g.mentioned a) = g.Mentions := by
    funext a b
    exact propext mem_mentioned
  have hroom : ∀ start ∈ g.start?.toList, ∀ symbol,
      ReflTransGen (fun a b => b ∈ g.mentioned a) start symbol → symbol.id < g.symbolCount := by
    intro start hstart symbol hleads
    rw [hmentioned] at hleads
    have hnonterminal := start_mem_nonterminals (Option.mem_toList.1 hstart)
    exact hnames symbol (mem_nonterminals_of_mentions hnonterminal hleads)
  obtain ⟨reachable, hreachable, hmarks⟩ :=
    SymbolSet.exists_marks_spread g.mentioned g.start?.toList hroom
  obtain ⟨nonterminals, hnonterminals, hall⟩ := exists_nonterminalSet hnames
  obtain ⟨unreachable, hunreachable, hdifference⟩ := hall.exists_difference hmarks
  refine ⟨unreachable, ?_, hdifference.congr fun symbol => ?_⟩
  · exact bind_eq_ok_iff.2 ⟨reachable, hreachable,
      bind_eq_ok_iff.2 ⟨nonterminals, hnonterminals, hunreachable⟩⟩
  · rw [hmentioned]
    refine and_congr_right fun hsymbol => not_congr ?_
    rw [reached_iff hsymbol]
    simp only [Option.mem_toList]

/-- A nonterminal passes its sentence on to another one, everything around which vanishes. -/
def Passes (g : Grammar) (symbol other : Symbol) : Prop :=
  other ∈ g.nonterminals ∧ ∃ before after, ⟨symbol, before ++ other :: after⟩ ∈ g.productions ∧
    ∀ neighbour ∈ before ++ after, g.Vanishes neighbour

lemma Vanishes.mem_nonterminals (h : g.Vanishes symbol) : symbol ∈ g.nonterminals := by
  obtain ⟨shape, hderivation, _⟩ := h
  exact hderivation.mem_nonterminals

lemma Passes.left_mem_nonterminals (h : g.Passes symbol other) : symbol ∈ g.nonterminals := by
  obtain ⟨_, before, after, hproduction, _⟩ := h
  exact mem_nonterminals_iff.2 ⟨_, hproduction⟩

/-- A sentence starts its way at a nonterminal. -/
lemma left_mem_nonterminals_of_transGen (h : TransGen g.Passes symbol other) :
    symbol ∈ g.nonterminals := by
  obtain ⟨_, hfirst, _⟩ := TransGen.head'_iff.1 h
  exact hfirst.left_mem_nonterminals

/-- The trivial expansion of a right-hand side consists of the nonterminals around which
everything vanishes. -/
lemma mem_trivialExpansion {nullable : SymbolSet} (hnullable : nullable.Marks g.symbolCount g.Vanishes)
    {rhs : List Symbol} :
    other ∈ g.trivialExpansion nullable rhs ↔ other ∈ g.nonterminals ∧
      ∃ before after, rhs = before ++ other :: after ∧
        ∀ neighbour ∈ before ++ after, g.Vanishes neighbour := by
  have hfilter : ∀ {row : List Symbol}, (row.filter fun symbol => !nullable.contains symbol) = [] ↔
      ∀ symbol ∈ row, g.Vanishes symbol := by
    intro row
    simp [List.filter_eq_nil_iff, hnullable.contains]
  unfold trivialExpansion
  constructor
  · intro hmem
    split at hmem
    · next hnil =>
      rw [hfilter] at hnil
      obtain ⟨before, after, rfl⟩ := List.append_of_mem hmem
      exact ⟨(hnil other hmem).mem_nonterminals, before, after, rfl, fun neighbour hneighbour =>
        hnil neighbour (mem_of_mem_around hneighbour)⟩
    · next only honly =>
      split at hmem
      · next hnonterminal =>
        obtain rfl := List.mem_singleton.1 hmem
        obtain ⟨before, after, rfl, hbefore, _, hafter⟩ := List.filter_eq_cons_iff.1 honly
        refine ⟨isNonterminal_iff.1 hnonterminal, before, after, rfl, fun neighbour hneighbour => ?_⟩
        rcases List.mem_append.1 hneighbour with hmem | hmem
        · exact (hnullable.contains neighbour).1 (by simpa using hbefore neighbour hmem)
        · exact hfilter.1 hafter neighbour hmem
      · cases hmem
    · cases hmem
  · rintro ⟨hother, before, after, rfl, hvanish⟩
    obtain ⟨hbefore, hafter⟩ := List.forall_mem_append.1 hvanish
    -- nothing but the symbol itself can be left over
    have honly : ((before ++ other :: after).filter fun symbol => !nullable.contains symbol) =
        [other].filter fun symbol => !nullable.contains symbol := by
      rw [List.filter_append, hfilter.2 hbefore, List.nil_append, List.filter_cons,
        hfilter.2 hafter, List.filter_cons, List.filter_nil]
    rw [honly]
    by_cases hknown : nullable.contains other = true
    · simp [hknown]
    · simp [hknown, hother]

lemma mem_trivialExpansions {nullable : SymbolSet}
    (hnullable : nullable.Marks g.symbolCount g.Vanishes) :
    other ∈ g.trivialExpansions nullable symbol ↔ g.Passes symbol other := by
  simp only [trivialExpansions, List.mem_flatMap, mem_alternatives, mem_trivialExpansion hnullable]
  constructor
  · rintro ⟨_, hproduction, hother, before, after, rfl, hvanish⟩
    exact ⟨hother, before, after, hproduction, hvanish⟩
  · rintro ⟨hother, before, after, hproduction, hvanish⟩
    exact ⟨_, hproduction, hother, before, after, rfl, hvanish⟩

section Recurrent

variable {next : Symbol → List Symbol}

/-- Leading to itself is decided within the nonterminals. -/
lemma exists_leadsToItself (hnames : g.NamesLeft)
    (hnext : ∀ symbol, ∀ other ∈ next symbol, other ∈ g.nonterminals) (symbol : Symbol) :
    ∃ b, g.leadsToItself next symbol = .ok b ∧
      (b = true ↔ TransGen (fun a b => b ∈ next a) symbol symbol) := by
  have hroom : ∀ source ∈ next symbol, ∀ other,
      ReflTransGen (fun a b => b ∈ next a) source other → other.id < g.symbolCount := by
    intro source hsource other hleads
    rcases hleads.cases_tail with rfl | ⟨last, _, hlast⟩
    · exact hnames other (hnext symbol other hsource)
    · exact hnames other (hnext last other hlast)
  obtain ⟨reached, hreached, hmarks⟩ :=
    SymbolSet.exists_marks_spread next (next symbol) hroom
  refine ⟨reached.contains symbol, bind_eq_ok_iff.2 ⟨reached, hreached, rfl⟩, ?_⟩
  rw [hmarks.contains, TransGen.head'_iff]

/-- The nonterminals of a row that lead to themselves are added to a set. -/
lemma exists_marks_foldlM (hnames : g.NamesLeft)
    (hnext : ∀ symbol, ∀ other ∈ next symbol, other ∈ g.nonterminals) {symbols : List Symbol}
    (hsymbols : ∀ symbol ∈ symbols, symbol ∈ g.nonterminals) {s : SymbolSet}
    {property : Symbol → Prop} (hs : s.Marks g.symbolCount property) :
    ∃ t, symbols.foldlM (fun recurrent symbol => do
        if ← g.leadsToItself next symbol then recurrent.put symbol true else return recurrent) s =
          .ok t ∧
      t.Marks g.symbolCount fun symbol =>
        property symbol ∨ symbol ∈ symbols ∧ TransGen (fun a b => b ∈ next a) symbol symbol := by
  induction symbols generalizing s property with
  | nil => exact ⟨s, rfl, hs.congr fun symbol => by simp⟩
  | cons symbol symbols ih =>
    obtain ⟨hsymbol, hrest⟩ := List.forall_mem_cons.1 hsymbols
    obtain ⟨b, hb, hiff⟩ := exists_leadsToItself hnames hnext symbol
    simp only [List.foldlM_cons, bind_eq_ok_iff, hb]
    cases b with
    | false =>
      obtain ⟨t, ht, hmarks⟩ := ih hrest hs
      refine ⟨t, ⟨s, ⟨false, rfl, rfl⟩, ht⟩, hmarks.congr fun other => ?_⟩
      have hnot : ¬ TransGen (fun a b => b ∈ next a) symbol symbol := fun h => nomatch hiff.2 h
      rw [List.mem_cons]
      constructor
      · tauto
      · rintro (hold | ⟨rfl | hmem, hleads⟩)
        · exact .inl hold
        · exact absurd hleads hnot
        · exact .inr ⟨hmem, hleads⟩
    | true =>
      have hleads := hiff.1 rfl
      obtain ⟨u, hu⟩ := SymbolSet.exists_put (hs.capacity.symm ▸ hnames symbol hsymbol) true
      have humarks : u.Marks g.symbolCount fun other => other = symbol ∨ property other := by
        refine ⟨(SymbolSet.capacity_of_put hu).trans hs.capacity, fun other => ?_⟩
        rw [SymbolSet.contains_of_put hu, ← hs.contains]
        by_cases heq : other = symbol
        · simp [heq]
        · simp [heq]
      obtain ⟨t, ht, hmarks⟩ := ih hrest humarks
      refine ⟨t, ⟨u, ⟨true, rfl, hu⟩, ht⟩, hmarks.congr fun other => ?_⟩
      rw [List.mem_cons]
      constructor
      · rintro ((rfl | hold) | hmem)
        · exact .inr ⟨.inl rfl, hleads⟩
        · exact .inl hold
        · exact .inr ⟨.inr hmem.1, hmem.2⟩
      · tauto

end Recurrent

theorem exists_cyclicSet (hnames : g.NamesLeft) {nullable : SymbolSet}
    (hnullable : nullable.Marks g.symbolCount g.Vanishes) :
    ∃ s, g.cyclicSet nullable = .ok s ∧
      s.Marks g.symbolCount fun symbol => TransGen g.Passes symbol symbol := by
  have hpasses : (fun a b => b ∈ g.trivialExpansions nullable a) = g.Passes := by
    funext a b
    exact propext (mem_trivialExpansions hnullable)
  have hnext : ∀ symbol, ∀ other ∈ g.trivialExpansions nullable symbol, other ∈ g.nonterminals :=
    fun symbol other hother => ((mem_trivialExpansions hnullable).1 hother).1
  obtain ⟨cyclic, hcyclic, hmarks⟩ := exists_marks_foldlM hnames hnext (fun _ hsymbol => hsymbol)
    (SymbolSet.marks_filled_false g.symbolCount)
  rw [hpasses] at hmarks
  refine ⟨cyclic, by rw [cyclicSet_eq]; exact hcyclic, hmarks.congr fun symbol => ?_⟩
  constructor
  · rintro (hfalse | ⟨_, hcycle⟩)
    · exact hfalse.elim
    · exact hcycle
  · intro hcycle
    exact .inr ⟨left_mem_nonterminals_of_transGen hcycle, hcycle⟩

/-- What the four sets of an analysis consist of. -/
structure Explains (g : Grammar) (a : Analysis) : Prop where
  unreachable : a.unreachable.Marks g.symbolCount fun symbol =>
    symbol ∈ g.nonterminals ∧ ¬ g.Reached symbol
  unrealizable : a.unrealizable.Marks g.symbolCount fun symbol => symbol ∈ g.nonterminals ∧
    ∀ shape, g.IsDerivation symbol shape → ∃ leaf ∈ shape.yield, g.symbolCount ≤ leaf.id
  nullable : a.nullable.Marks g.symbolCount g.Vanishes
  cyclic : a.cyclic.Marks g.symbolCount fun symbol => TransGen g.Passes symbol symbol

/-- A grammar with names for its left-hand sides has an analysis, and its sets are the right
ones. -/
theorem exists_analysis (hnames : g.NamesLeft) : ∃ a, g.analysis = .ok a ∧ g.Explains a := by
  obtain ⟨unreachable, hunreachable, hnone⟩ := exists_unreachableSet hnames
  obtain ⟨unrealizable, hunrealizable, hbarren⟩ := exists_unrealizableSet hnames
  obtain ⟨nullable, hnullable, hvanish⟩ := exists_nullableSet hnames
  obtain ⟨cyclic, hcyclic, hcycles⟩ := exists_cyclicSet hnames hvanish
  refine ⟨⟨unreachable, unrealizable, nullable, cyclic⟩, ?_, hnone, hbarren, hvanish, hcycles⟩
  exact bind_eq_ok_iff.2 ⟨_, hunreachable, bind_eq_ok_iff.2 ⟨_, hunrealizable,
    bind_eq_ok_iff.2 ⟨_, hnullable, bind_eq_ok_iff.2 ⟨_, hcyclic, rfl⟩⟩⟩⟩

end Grammar

end ContextFree
