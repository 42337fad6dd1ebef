import ContextFree.Proofs.Generating
import Mathlib.Logic.Relation

/-!
# What spreading marks reaches

Marks that spread from a row of symbols come to exactly the symbols that the row leads to, as
long as all of these fit into the set. While marks spread, a successor of a marked symbol is
marked or waits in the queue.

Two sets of a grammar are made in this way. The start symbol leads to the nonterminals in its
sentential forms, and a cyclic nonterminal is one that passes its whole sentence on, from node
to node, until it comes to itself.
-/
namespace ContextFree

open Relation

namespace SymbolSet

variable {next : Symbol → List Symbol} {marked all : SymbolSet} {queue : Queue Symbol}
  {property : Symbol → Prop}

/-- Nothing is in the way when everything that can be reached fits into the set. -/
lemma exists_spread (hroom : ∀ symbol, property symbol → symbol.id < marked.capacity)
    (hnext : ∀ symbol, property symbol → ∀ other ∈ next symbol, property other)
    (hqueue : ∀ symbol ∈ queue.toList, property symbol) :
    ∃ all, spread next marked queue = .ok all := by
  fun_induction spread next marked queue with
  | case1 marked => exact ⟨marked, rfl⟩
  | case2 marked queue symbol rest hdraw _ _ fault hput =>
    have hsymbol : property symbol := hqueue symbol (by simp [Queue.toList_of_draw? hdraw])
    obtain ⟨more, hmore⟩ := exists_put (hroom symbol hsymbol) true
    rw [hput] at hmore
    cases hmore
  | case3 marked queue symbol rest hdraw _ _ more hput _ ih =>
    rw [Queue.toList_of_draw? hdraw] at hqueue
    obtain ⟨hsymbol, hrest⟩ := List.forall_mem_cons.1 hqueue
    apply ih
    · rwa [capacity_of_put hput]
    · rw [Queue.toList_append]
      exact List.forall_mem_append.2 ⟨hrest, hnext symbol hsymbol⟩
  | case4 marked queue symbol rest hdraw _ _ ih =>
    rw [Queue.toList_of_draw? hdraw] at hqueue
    exact ih hroom (List.forall_mem_cons.1 hqueue).2

lemma capacity_of_spread (h : spread next marked queue = .ok all) :
    all.capacity = marked.capacity := by
  fun_induction spread next marked queue with
  | case1 marked => rw [Except.ok.inj h]
  | case2 => cases h
  | case3 marked queue symbol rest _ _ _ more hput _ ih => rw [ih h, capacity_of_put hput]
  | case4 marked queue symbol rest _ _ _ ih => exact ih h

lemma contains_of_spread (h : spread next marked queue = .ok all) {symbol : Symbol}
    (hsymbol : marked.contains symbol = true ∨ symbol ∈ queue.toList) :
    all.contains symbol = true := by
  fun_induction spread next marked queue with
  | case1 marked queue hdraw =>
    rw [Queue.draw?_eq_none_iff.1 hdraw] at hsymbol
    rw [← Except.ok.inj h]
    simpa using hsymbol
  | case2 => cases h
  | case3 marked queue first rest hdraw _ _ more hput _ ih =>
    apply ih h
    rw [contains_of_put hput, Queue.toList_append, List.mem_append]
    rw [Queue.toList_of_draw? hdraw, List.mem_cons] at hsymbol
    split
    · exact .inl rfl
    · tauto
  | case4 marked queue first rest hdraw _ hmarked ih =>
    apply ih h
    rw [Queue.toList_of_draw? hdraw, List.mem_cons] at hsymbol
    rcases hsymbol with hsymbol | rfl | hsymbol
    · exact .inl hsymbol
    · exact .inl (Bool.not_eq_false _ ▸ hmarked)
    · exact .inr hsymbol

/-- A property that spreads like the marks holds of everything marked. -/
lemma property_of_spread (hmarked : ∀ symbol, marked.contains symbol = true → property symbol)
    (hnext : ∀ symbol, property symbol → ∀ other ∈ next symbol, property other)
    (hqueue : ∀ symbol ∈ queue.toList, property symbol)
    (h : spread next marked queue = .ok all) {symbol : Symbol}
    (hsymbol : all.contains symbol = true) : property symbol := by
  fun_induction spread next marked queue with
  | case1 marked => exact hmarked symbol (Except.ok.inj h ▸ hsymbol)
  | case2 => cases h
  | case3 marked queue first rest hdraw _ _ more hput _ ih =>
    rw [Queue.toList_of_draw? hdraw] at hqueue
    obtain ⟨hfirst, hrest⟩ := List.forall_mem_cons.1 hqueue
    refine ih ?_ ?_ h
    · intro other hother
      rw [contains_of_put hput] at hother
      split at hother
      · next heq => rwa [heq]
      · exact hmarked other hother
    · rw [Queue.toList_append]
      exact List.forall_mem_append.2 ⟨hrest, hnext first hfirst⟩
  | case4 marked queue first rest hdraw _ _ ih =>
    rw [Queue.toList_of_draw? hdraw] at hqueue
    exact ih hmarked (List.forall_mem_cons.1 hqueue).2 h

/-- In the end every successor of a marked symbol is marked. -/
lemma closed_of_spread
    (hclosed : ∀ symbol, marked.contains symbol = true → ∀ other ∈ next symbol,
      marked.contains other = true ∨ other ∈ queue.toList)
    (h : spread next marked queue = .ok all) {symbol : Symbol}
    (hsymbol : all.contains symbol = true) : ∀ other ∈ next symbol, all.contains other = true := by
  fun_induction spread next marked queue with
  | case1 marked queue hdraw =>
    rw [Queue.draw?_eq_none_iff.1 hdraw] at hclosed
    rw [← Except.ok.inj h] at hsymbol ⊢
    simpa using hclosed symbol hsymbol
  | case2 => cases h
  | case3 marked queue first rest hdraw _ _ more hput _ ih =>
    refine ih ?_ h
    intro source hsource other hother
    rw [contains_of_put hput, Queue.toList_append, List.mem_append]
    rw [contains_of_put hput] at hsource
    split at hsource
    · next heq => exact .inr (.inr (heq ▸ hother))
    · have hold := hclosed source hsource other hother
      rw [Queue.toList_of_draw? hdraw, List.mem_cons] at hold
      split
      · exact .inl rfl
      · tauto
  | case4 marked queue first rest hdraw _ hmarked ih =>
    refine ih ?_ h
    intro source hsource other hother
    have hold := hclosed source hsource other hother
    rw [Queue.toList_of_draw? hdraw, List.mem_cons] at hold
    rcases hold with hold | rfl | hold
    · exact .inl hold
    · exact .inl (Bool.not_eq_false _ ▸ hmarked)
    · exact .inr hold

/-- Marks that spread over an empty set come to what the row of sources leads to. -/
theorem exists_marks_spread (next : Symbol → List Symbol) (sources : List Symbol) {capacity : ℕ}
    (hroom : ∀ source ∈ sources, ∀ symbol,
      ReflTransGen (fun a b => b ∈ next a) source symbol → symbol.id < capacity) :
    ∃ all, spread next (filled capacity false) (.ofList sources) = .ok all ∧
      all.Marks capacity fun symbol =>
        ∃ source ∈ sources, ReflTransGen (fun a b => b ∈ next a) source symbol := by
  have hnext : ∀ symbol, (∃ source ∈ sources, ReflTransGen (fun a b => b ∈ next a) source symbol) →
      ∀ other ∈ next symbol,
        ∃ source ∈ sources, ReflTransGen (fun a b => b ∈ next a) source other := by
    rintro symbol ⟨source, hsource, hleads⟩ other hother
    exact ⟨source, hsource, hleads.tail hother⟩
  have hqueue : ∀ symbol ∈ (Queue.ofList sources).toList,
      ∃ source ∈ sources, ReflTransGen (fun a b => b ∈ next a) source symbol := by
    intro symbol hsymbol
    rw [Queue.toList_ofList] at hsymbol
    exact ⟨symbol, hsymbol, .refl⟩
  have hempty : ∀ symbol, (filled capacity false).contains symbol ≠ true := by simp
  have hfits : ∀ symbol, (∃ source ∈ sources, ReflTransGen (fun a b => b ∈ next a) source symbol) →
      symbol.id < (filled capacity false).capacity := by
    rintro symbol ⟨source, hsource, hleads⟩
    rw [capacity_filled]
    exact hroom source hsource symbol hleads
  obtain ⟨all, hall⟩ := exists_spread hfits hnext hqueue
  refine ⟨all, hall, (capacity_of_spread hall).trans (capacity_filled capacity false), ?_⟩
  intro symbol
  constructor
  · exact property_of_spread (fun other hother => absurd hother (hempty other)) hnext hqueue hall
  · rintro ⟨source, hsource, hleads⟩
    have hclosed : ∀ {symbol : Symbol}, all.contains symbol = true →
        ∀ other ∈ next symbol, all.contains other = true :=
      closed_of_spread (fun other hother => absurd hother (hempty other)) hall
    induction hleads with
    | refl => exact contains_of_spread hall (.inr (by rwa [Queue.toList_ofList]))
    | tail _ hstep ih => exact hclosed ih _ hstep

end SymbolSet

end ContextFree
