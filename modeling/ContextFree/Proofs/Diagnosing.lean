import ContextFree.Analysis.Diagnostic
import ContextFree.Grammar.Text
import ContextFree.Proofs.Interning
import ContextFree.Proofs.Reaching
import Mathlib

/-!
# What an analysis reports

The sets of an analysis have room for the named symbols. A left-hand side without a name is put
into one of them sooner or later, which is a fault; nothing else is. In a grammar that names its
left-hand sides all four sets consist of nonterminals. So a diagnostic, which lists the
nonterminals of a set in the order of their definition, lists all members, and a set has a
diagnostic exactly when it has a member.
-/
namespace ContextFree

namespace SymbolSet

variable {next : Symbol → List Symbol} {property : Symbol → Prop} {s t marked : SymbolSet}
  {queue : Queue Symbol} {symbol : Symbol} {symbols : List Symbol} {member : Bool} {fault : Fault}

lemma isEmpty_iff : s.isEmpty = true ↔ s.members = [] := by
  simp only [List.eq_nil_iff_forall_not_mem, mem_members, Bool.not_eq_true]
  simp only [isEmpty, Array.all_eq_true, Bool.not_eq_true']
  constructor
  · intro hbits symbol
    by_cases hlt : symbol.id < s.bits.size
    · rw [contains, Array.getElem?_eq_getElem hlt, Option.getD_some, hbits symbol.id hlt]
    · rw [contains, Array.getElem?_eq_none (Nat.not_lt.1 hlt), Option.getD_none]
  · intro hnone index hlt
    have hbit := hnone ⟨index⟩
    rwa [contains, Array.getElem?_eq_getElem hlt, Option.getD_some] at hbit

/-- What goes wrong when a symbol does not fit into a set of the given capacity. -/
def Misfits (capacity : ℕ) (symbol : Symbol) (fault : Fault) : Prop :=
  capacity ≤ symbol.id ∧ fault = .indexOutOfBounds symbol.id capacity

lemma put_eq_error_iff :
    s.put symbol member = .error fault ↔ Misfits s.capacity symbol fault := by
  by_cases h : symbol.id < s.bits.size
  · simp [put, h, Misfits, capacity]
  · simp [put, h, Misfits, capacity, Nat.not_lt.1 h, eq_comm]

/-- Symbols that cannot all be put in have a first one that does not fit. -/
lemma exists_misfits_of_putAll (h : s.putAll symbols member = .error fault) :
    ∃ symbol ∈ symbols, Misfits s.capacity symbol fault := by
  induction symbols generalizing s with
  | nil => cases h
  | cons symbol symbols ih =>
    rw [putAll, List.foldlM_cons] at h
    rcases bind_eq_error_iff.1 h with hput | ⟨u, hput, hrest⟩
    · exact ⟨symbol, List.mem_cons_self, put_eq_error_iff.1 hput⟩
    · obtain ⟨other, hother, hmisfits⟩ := ih hrest
      rw [capacity_of_put hput] at hmisfits
      exact ⟨other, List.mem_cons_of_mem symbol hother, hmisfits⟩

lemma lt_capacity_of_putAll (h : s.putAll symbols member = .ok t) :
    ∀ symbol ∈ symbols, symbol.id < s.capacity := by
  induction symbols generalizing s with
  | nil => simp
  | cons symbol symbols ih =>
    rw [putAll, List.foldlM_cons] at h
    obtain ⟨u, hput, hrest⟩ := bind_eq_ok_iff.1 h
    refine List.forall_mem_cons.2 ⟨(put_eq_ok_iff.1 hput).1, fun other hother => ?_⟩
    rw [← capacity_of_put hput]
    exact ih hrest other hother

/-- Marks that cannot spread any further have come to a symbol that does not fit. -/
lemma exists_misfits_of_spread
    (hnext : ∀ symbol, property symbol → ∀ other ∈ next symbol, property other)
    (hqueue : ∀ symbol ∈ queue.toList, property symbol)
    (h : spread next marked queue = .error fault) :
    ∃ symbol, property symbol ∧ Misfits marked.capacity symbol fault := by
  fun_induction spread next marked queue with
  | case1 => cases h
  | case2 marked queue symbol rest hdraw _ _ fault' hput =>
    obtain rfl := Except.error.inj h
    exact ⟨symbol, hqueue symbol (by simp [Queue.toList_of_draw? hdraw]), put_eq_error_iff.1 hput⟩
  | case3 marked queue symbol rest hdraw _ _ more hput _ ih =>
    rw [Queue.toList_of_draw? hdraw] at hqueue
    obtain ⟨hsymbol, hrest⟩ := List.forall_mem_cons.1 hqueue
    have hmore : ∀ other ∈ (rest.append (next symbol)).toList, property other := by
      rw [Queue.toList_append]
      exact List.forall_mem_append.2 ⟨hrest, hnext symbol hsymbol⟩
    rw [← capacity_of_put hput]
    exact ih hmore h
  | case4 marked queue symbol rest hdraw _ _ ih =>
    rw [Queue.toList_of_draw? hdraw] at hqueue
    exact ih (List.forall_mem_cons.1 hqueue).2 h

end SymbolSet

namespace Grammar

variable {g : Grammar} {a : Analysis} {fault : Fault}

/-! ### Grammars without an analysis -/

@[simp] lemma outcome_analyse (g : Grammar) : g.analyse.outcome = g.analysis := by
  rw [analyse, Logged.outcome_bind]
  cases hanalysis : g.analysis with
  | error fault => rw [Logged.outcome_liftM]; rfl
  | ok a => rw [Logged.outcome_liftM]; rfl

lemma namesLeft_of_nonterminalSet {s : SymbolSet} (h : g.nonterminalSet = .ok s) :
    g.NamesLeft := by
  obtain ⟨terminals, hterminals, _⟩ := bind_eq_ok_iff.1 h
  intro symbol hsymbol
  have hlt := SymbolSet.lt_capacity_of_putAll hterminals symbol hsymbol
  rwa [symbolSet, SymbolSet.capacity_filled] at hlt

lemma namesLeft_of_unreachableSet {s : SymbolSet} (h : g.unreachableSet = .ok s) :
    g.NamesLeft := by
  obtain ⟨reachable, _, hrest⟩ := bind_eq_ok_iff.1 h
  obtain ⟨nonterminals, hnonterminals, _⟩ := bind_eq_ok_iff.1 hrest
  exact namesLeft_of_nonterminalSet hnonterminals

lemma namesLeft_of_analysis (h : g.analysis = .ok a) : g.NamesLeft := by
  obtain ⟨unreachable, hunreachable, _⟩ := bind_eq_ok_iff.1 h
  exact namesLeft_of_unreachableSet hunreachable

lemma explains_of_analysis (h : g.analysis = .ok a) : g.Explains a := by
  obtain ⟨a', hanalysis, hexplains⟩ := exists_analysis (namesLeft_of_analysis h)
  rw [h] at hanalysis
  rwa [Except.ok.inj hanalysis]

/-- A fault of an analysis is that of a left-hand side without a name. It comes up at the latest
when the set of all nonterminals is made. -/
lemma exists_misfits_of_analysis (h : g.analysis = .error fault) :
    ∃ symbol ∈ g.nonterminals, SymbolSet.Misfits g.symbolCount symbol fault := by
  have hnames : ¬ g.NamesLeft := by
    intro hnames
    obtain ⟨a, hanalysis, _⟩ := exists_analysis hnames
    rw [h] at hanalysis
    cases hanalysis
  have hnext : ∀ symbol, symbol ∈ g.nonterminals → ∀ other ∈ g.mentioned symbol,
      other ∈ g.nonterminals := fun symbol _ other hother => (mem_mentioned.1 hother).1
  have hstart : ∀ symbol ∈ (Queue.ofList g.start?.toList).toList, symbol ∈ g.nonterminals := by
    intro symbol hsymbol
    rw [Queue.toList_ofList, Option.mem_toList] at hsymbol
    exact start_mem_nonterminals hsymbol
  have hunreachable : g.unreachableSet = .error fault := by
    rcases bind_eq_error_iff.1 h with hfault | ⟨unreachable, hok, _⟩
    · exact hfault
    · exact absurd (namesLeft_of_unreachableSet hok) hnames
  rcases bind_eq_error_iff.1 hunreachable with hspread | ⟨reachable, _, hrest⟩
  · have hmisfits := SymbolSet.exists_misfits_of_spread hnext hstart hspread
    rwa [symbolSet, SymbolSet.capacity_filled] at hmisfits
  · rcases bind_eq_error_iff.1 hrest with hfault | ⟨nonterminals, hok, _⟩
    · rcases bind_eq_error_iff.1 hfault with hput | ⟨terminals, _, hpure⟩
      · have hmisfits := SymbolSet.exists_misfits_of_putAll hput
        rwa [symbolSet, SymbolSet.capacity_filled] at hmisfits
      · cases hpure
    · exact absurd (namesLeft_of_nonterminalSet hok) hnames

/-! ### Sets and their diagnostics -/

lemma Explains.mem_nonterminals (h : g.Explains a) {s : SymbolSet}
    (hs : s ∈ [a.unreachable, a.unrealizable, a.nullable, a.cyclic]) {symbol : Symbol}
    (hsymbol : s.contains symbol = true) : symbol ∈ g.nonterminals := by
  simp only [List.mem_cons, List.not_mem_nil, or_false] at hs
  rcases hs with rfl | rfl | rfl | rfl
  · exact ((h.unreachable.contains symbol).1 hsymbol).1
  · exact ((h.unrealizable.contains symbol).1 hsymbol).1
  · exact ((h.nullable.contains symbol).1 hsymbol).mem_nonterminals
  · exact left_mem_nonterminals_of_transGen ((h.cyclic.contains symbol).1 hsymbol)

end Grammar

/-- What a diagnostic of a set of nonterminals says: it lists the members in the order of their
definition, each of them once, by the names that the set has. -/
structure Diagnostic.Reports (g : Grammar) (kind : DiagnosticKind) (s : SymbolSet)
    (d : Diagnostic) : Prop where
  kind_eq : d.kind = kind
  nonempty : d.nonterminals ≠ []
  mem_iff : ∀ symbol, symbol ∈ d.nonterminals ↔ s.contains symbol = true
  nodup : d.nonterminals.Nodup
  order : d.nonterminals.Sublist g.nonterminals
  names : d.nonterminals.map g.name? = (s.names g).map some

/-- The nonterminals of a set that has no other members. -/
lemma Diagnostic.reports_filter {g : Grammar} (hnames : g.NamesLeft) (kind : DiagnosticKind)
    {s : SymbolSet} (hs : ∀ symbol, s.contains symbol = true → symbol ∈ g.nonterminals)
    (hmembers : s.members ≠ []) : Reports g kind s ⟨kind, g.nonterminals.filter s.contains⟩ where
  kind_eq := rfl
  nonempty := by
    obtain ⟨symbol, hsymbol⟩ := List.exists_mem_of_ne_nil _ hmembers
    rw [SymbolSet.mem_members] at hsymbol
    exact List.ne_nil_of_mem (List.mem_filter.2 ⟨hs symbol hsymbol, hsymbol⟩)
  mem_iff symbol := by
    rw [List.mem_filter]
    exact ⟨And.right, fun hsymbol => ⟨hs symbol hsymbol, hsymbol⟩⟩
  nodup := List.Nodup.filter _ g.distinct
  order := List.filter_sublist
  names := by
    have hnone : (s.members.filter fun symbol => !g.isNonterminal symbol) = [] := by
      rw [List.filter_eq_nil_iff]
      intro symbol hsymbol
      simp [hs symbol (SymbolSet.mem_members.1 hsymbol)]
    rw [SymbolSet.names, hnone, List.append_nil, List.map_filterMap_some_eq_filter_map_isSome]
    refine (List.filter_eq_self.2 fun name hname => ?_).symm
    obtain ⟨symbol, hsymbol, rfl⟩ := List.mem_map.1 hname
    exact NameTable.isSome_name?.2 (hnames symbol (List.mem_filter.1 hsymbol).1)

namespace Grammar

/-- Every set that stands for a problem and has members is reported, in the order of the
categories. -/
lemma Explains.reports_diagnostics {g : Grammar} {a : Analysis} (h : g.Explains a)
    (hnames : g.NamesLeft) :
    List.Forall₂ (fun category d => Diagnostic.Reports g category.1 category.2 d)
      (a.categories.filter fun category => category.2.members ≠ []) (a.diagnostics g) := by
  have hfilter : (fun category : DiagnosticKind × SymbolSet => !category.2.isEmpty) =
      fun category => decide (category.2.members ≠ []) := by
    funext category
    rw [Bool.eq_iff_iff, Bool.not_eq_true', Bool.eq_false_iff, decide_eq_true_iff, Ne,
      SymbolSet.isEmpty_iff]
  rw [Analysis.diagnostics, hfilter, List.forall₂_map_right_iff, List.forall₂_same]
  intro category hcategory
  obtain ⟨hcategory, hmembers⟩ := List.mem_filter.1 hcategory
  have hset : category.2 ∈ [a.unreachable, a.unrealizable, a.nullable, a.cyclic] := by
    simp only [Analysis.categories, List.mem_cons, List.not_mem_nil, or_false] at hcategory
    rcases hcategory with rfl | rfl | rfl
    · simp
    · simp
    · simp
  exact Diagnostic.reports_filter hnames category.1 (fun symbol => h.mem_nonterminals hset)
    (of_decide_eq_true hmembers)

/-- An analysis faults exactly when some left-hand side has no name, and the fault names such a
one. Otherwise everything that is marked fits, the sets consist of nonterminals, and every set that
stands for a problem and has members is reported in full. -/
theorem reports_of_analyse (g : Grammar) :
    ((∃ fault, g.analyse.outcome = .error fault) ↔
      ∃ symbol ∈ g.nonterminals, g.symbolCount ≤ symbol.id) ∧
    (∀ fault, g.analyse.outcome = .error fault →
      ∃ symbol ∈ g.nonterminals, g.symbolCount ≤ symbol.id ∧
        fault = .indexOutOfBounds symbol.id g.symbolCount ∧
        fault.message = s!"index out of bounds: {symbol.id} >= {g.symbolCount}") ∧
    ∀ a, g.analyse.outcome = .ok a →
      (∀ s ∈ [a.unreachable, a.unrealizable, a.nullable, a.cyclic], ∀ symbol,
        s.contains symbol = true → symbol ∈ g.nonterminals ∧ symbol.id < g.symbolCount) ∧
      (∀ symbol other, other ∈ g.trivialExpansions a.nullable symbol →
        symbol.id < g.symbolCount ∧ other.id < g.symbolCount) ∧
      List.Forall₂ (fun category d => Diagnostic.Reports g category.1 category.2 d)
        ([(DiagnosticKind.unreachable, a.unreachable), (.unrealizable, a.unrealizable),
          (.cyclic a.unboundedAmbiguity, a.cyclic)].filter fun category =>
            category.2.members ≠ [])
        (a.diagnostics g) := by
  simp only [outcome_analyse]
  refine ⟨⟨?_, ?_⟩, ?_, ?_⟩
  · rintro ⟨fault, hfault⟩
    obtain ⟨symbol, hsymbol, hbeyond, _⟩ := exists_misfits_of_analysis hfault
    exact ⟨symbol, hsymbol, hbeyond⟩
  · rintro ⟨symbol, hsymbol, hbeyond⟩
    cases hanalysis : g.analysis with
    | error fault => exact ⟨fault, rfl⟩
    | ok a =>
      have hlt := namesLeft_of_analysis hanalysis symbol hsymbol
      omega
  · intro fault hfault
    obtain ⟨symbol, hsymbol, hbeyond, rfl⟩ := exists_misfits_of_analysis hfault
    exact ⟨symbol, hsymbol, hbeyond, rfl, rfl⟩
  · intro a hanalysis
    have hnames := namesLeft_of_analysis hanalysis
    have hexplains := explains_of_analysis hanalysis
    refine ⟨?_, ?_, ?_⟩
    · intro s hs symbol hsymbol
      have hnonterminal := hexplains.mem_nonterminals hs hsymbol
      exact ⟨hnonterminal, hnames symbol hnonterminal⟩
    · intro symbol other hother
      have hpasses := (mem_trivialExpansions hexplains.nullable).1 hother
      exact ⟨hnames symbol hpasses.left_mem_nonterminals, hnames other hpasses.1⟩
    · exact hexplains.reports_diagnostics hnames

/-- A rule for a symbol beyond the name table that nothing leads to: `S → a` and `? → S`. -/
def strayRule : Grammar := (({} : Grammar).addAlternatives "S" "a").addRule ⟨⟨7⟩, [⟨0⟩]⟩

/-- Every kind of problem, with a symbol without a name on the right: `S → A | b`, `B → C b`,
`D → d`, `A → A` and `C → c | ?`, where `C` is named before `D`. -/
def troubledRules : Grammar :=
  ((((({} : Grammar).addAlternatives "S" "A|b").addAlternatives "B" "Cb").addAlternatives
    "D" "d").addAlternatives "A" "A").addAlternatives "C" "c" |>.addRule ⟨⟨4⟩, [⟨90⟩]⟩

/-- The stray rule is a fault. Of the troubled ones `B`, `D` and `C` are reported as unreachable,
and `A` as unrealizable and as cyclic. -/
theorem reports_of_troubledRules :
    (strayRule.analyse.outcome = .error (.indexOutOfBounds 7 2) ∧
      ∃ symbol ∈ strayRule.nonterminals, strayRule.symbolCount ≤ symbol.id) ∧
    ∃ a, troubledRules.analyse.outcome = .ok a ∧
      a.diagnostics troubledRules = [⟨.unreachable, [⟨3⟩, ⟨5⟩, ⟨4⟩]⟩,
        ⟨.unrealizable, [⟨1⟩]⟩, ⟨.cyclic false, [⟨1⟩]⟩] ∧
      List.Forall₂ (fun category d => Diagnostic.Reports troubledRules category.1 category.2 d)
        ([(DiagnosticKind.unreachable, a.unreachable), (.unrealizable, a.unrealizable),
          (.cyclic a.unboundedAmbiguity, a.cyclic)].filter fun category =>
            category.2.members ≠ [])
        [⟨.unreachable, [⟨3⟩, ⟨5⟩, ⟨4⟩]⟩, ⟨.unrealizable, [⟨1⟩]⟩, ⟨.cyclic false, [⟨1⟩]⟩] := by
  have hstray : strayRule.analyse.outcome = .error (.indexOutOfBounds 7 2) := by cbv
  have hrun : troubledRules.analyse.outcome.map (fun a => a.diagnostics troubledRules) =
      .ok [⟨.unreachable, [⟨3⟩, ⟨5⟩, ⟨4⟩]⟩, ⟨.unrealizable, [⟨1⟩]⟩, ⟨.cyclic false, [⟨1⟩]⟩] := by cbv
  obtain ⟨a, hanalysis, hdiagnostics⟩ := map_eq_ok_iff.1 hrun
  have hreports := ((reports_of_analyse troubledRules).2.2 a hanalysis).2.2
  rw [hdiagnostics] at hreports
  exact ⟨⟨hstray, (reports_of_analyse strayRule).1.1 ⟨_, hstray⟩⟩, a, hanalysis, hdiagnostics,
    hreports⟩

end Grammar

end ContextFree
