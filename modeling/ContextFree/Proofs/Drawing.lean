import ContextFree.Proofs.Spreading

/-!
# How long marks spread

Marks spread by drawing symbols from a queue. A symbol may wait there many times over, and it may
wait although it is marked, so the length of the queue says nothing about how much is left to do.
But a symbol is marked at one draw only, and only then its successors are queued. The draws of a
whole traversal are therefore known from its result: one for everything that waits at the start,
and one for every successor of every symbol that has come to be marked.
-/
namespace ContextFree.SymbolSet

variable {next : Symbol → List Symbol} {marked more all : SymbolSet} {queue : Queue Symbol}
  {waiting : List Symbol} {symbol : Symbol} {draws : ℕ}

/-- A traversal that comes to its end, draw by draw: from what is marked and what waits at first to
what is marked once nothing waits any more, with the number of draws in between. -/
inductive Traversal (next : Symbol → List Symbol) :
    SymbolSet → List Symbol → ℕ → SymbolSet → Prop
  | done (marked : SymbolSet) : Traversal next marked [] 0 marked
  /-- A symbol that is marked already is dropped. -/
  | known {marked all : SymbolSet} {symbol : Symbol} {waiting : List Symbol} {draws : ℕ}
      (hknown : marked.contains symbol = true) (rest : Traversal next marked waiting draws all) :
      Traversal next marked (symbol :: waiting) (draws + 1) all
  /-- A new symbol is marked, and its successors wait behind all others. -/
  | new {marked more all : SymbolSet} {symbol : Symbol} {waiting : List Symbol} {draws : ℕ}
      (hnew : marked.contains symbol = false) (hput : marked.put symbol true = .ok more)
      (rest : Traversal next more (waiting ++ next symbol) draws all) :
      Traversal next marked (symbol :: waiting) (draws + 1) all

/-- Marks that have spread did so in finitely many draws. -/
theorem exists_traversal (h : spread next marked queue = .ok all) :
    ∃ draws, Traversal next marked queue.toList draws all := by
  fun_induction spread next marked queue with
  | case1 marked queue hdraw =>
    rw [Queue.draw?_eq_none_iff.1 hdraw, Except.ok.inj h]
    exact ⟨0, .done all⟩
  | case2 => cases h
  | case3 marked queue symbol rest hdraw _ hnew more hput _ ih =>
    obtain ⟨draws, htraversal⟩ := ih h
    rw [Queue.toList_append] at htraversal
    rw [Queue.toList_of_draw? hdraw]
    exact ⟨draws + 1, .new hnew hput htraversal⟩
  | case4 marked queue symbol rest hdraw _ hknown ih =>
    obtain ⟨draws, htraversal⟩ := ih h
    rw [Queue.toList_of_draw? hdraw]
    exact ⟨draws + 1, .known (Bool.not_eq_false _ ▸ hknown) htraversal⟩

lemma nodup_members (s : SymbolSet) : s.members.Nodup :=
  (List.nodup_range.map fun _ _ h => (Symbol.mk.inj h)).filter _

lemma members_filled_false (capacity : ℕ) : (filled capacity false).members = [] := by
  rw [List.eq_nil_iff_forall_not_mem]
  simp

/-- A symbol that is put in joins the members. -/
lemma members_perm_of_put (hput : marked.put symbol true = .ok more)
    (hnew : marked.contains symbol = false) : more.members.Perm (symbol :: marked.members) := by
  have hsymbol : symbol ∉ marked.members := by
    rw [mem_members, hnew]
    exact Bool.false_ne_true
  rw [List.perm_ext_iff_of_nodup more.nodup_members
    (List.nodup_cons.2 ⟨hsymbol, marked.nodup_members⟩)]
  intro other
  rw [mem_members, contains_of_put hput, List.mem_cons, mem_members]
  by_cases heq : other = symbol
  · simp [heq]
  · simp [heq]

/-- The successors of a symbol that is put in join those of the other members. -/
lemma length_successors_of_put (next : Symbol → List Symbol)
    (hput : marked.put symbol true = .ok more) (hnew : marked.contains symbol = false) :
    (more.members.flatMap next).length =
      (next symbol).length + (marked.members.flatMap next).length := by
  have hperm := (members_perm_of_put hput hnew).flatMap_right next
  rw [hperm.length_eq, List.flatMap_cons, List.length_append]

/-- Every draw takes something from the queue that waited at the start or came with a symbol when
it was marked. -/
theorem Traversal.draws_eq (h : Traversal next marked waiting draws all) :
    draws + (marked.members.flatMap next).length =
      waiting.length + (all.members.flatMap next).length := by
  induction h with
  | done marked => rw [List.length_nil]
  | known _ _ ih =>
    rw [List.length_cons]
    omega
  | new hnew hput _ ih =>
    rw [length_successors_of_put next hput hnew, List.length_append] at ih
    rw [List.length_cons]
    omega

/-- The draws of a traversal that starts with nothing marked. -/
lemma Traversal.draws_eq_of_filled {capacity : ℕ}
    (h : Traversal next (filled capacity false) waiting draws all) :
    draws = waiting.length + (all.members.flatMap next).length := by
  have hdraws := h.draws_eq
  rwa [members_filled_false, List.flatMap_nil, List.length_nil, Nat.add_zero] at hdraws

end ContextFree.SymbolSet
