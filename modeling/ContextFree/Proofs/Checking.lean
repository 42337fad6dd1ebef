import ContextFree.Chart.Checked
import ContextFree.Proofs.Editing
import ContextFree.Proofs.Finishing

/-!
# The contracts of the parser

The checked parser and the parser do the same, turn by turn. An item is seen as one that keeps
its whole right-hand side (`Item.counted`), and everything the checked parser makes is such a
view. A view has as many matched trees as symbols behind the dot, so it meets every contract on
items. It finishes at a position to its right or at its own (`Item.Fits`), where the chart is
already filled, so it meets every contract on rows.

Nothing is asked of the grammar here. What is left are faults, and each of them has its reason:
too many names for a root symbol, a tree that is too large, or a production for the root.
-/
namespace ContextFree

open Checked

/-! ### Outcomes of the two parsers -/

section Outcomes

variable {α β γ δ : Type}

/-- An outcome as one of the checked parser, with a view of the result. -/
def Trap.lift (view : α → β) : Except Fault α → Except Trap β
  | .ok a => .ok (view a)
  | .error reason => .error (.fault reason)

@[simp] lemma Trap.lift_ok (view : α → β) (a : α) : lift view (.ok a) = .ok (view a) := rfl

@[simp] lemma Trap.lift_error (view : α → β) (reason : Fault) :
    lift view (.error reason) = .error (.fault reason) := rfl

lemma Trap.mapError_eq_lift (x : Except Fault α) : x.mapError .fault = lift id x := by
  cases x <;> rfl

lemma Trap.lift_ne_breach (view : α → β) (x : Except Fault α) (broken : Breach) :
    lift view x ≠ .error (.breach broken) := by
  cases x <;> simp

lemma Trap.lift_eq_fault_iff {view : α → β} {x : Except Fault α} {reason : Fault} :
    lift view x = .error (.fault reason) ↔ x = .error reason := by
  cases x <;> simp

/-- The two parsers go on alike when they do so from every result. -/
lemma Trap.lift_bind {view : α → β} {view' : γ → δ} {x : Except Fault α}
    {next : α → Except Fault γ} {next' : β → Except Trap δ}
    (h : ∀ a, x = .ok a → next' (view a) = lift view' (next a)) :
    lift view x >>= next' = lift view' (x >>= next) := by
  cases x with
  | error reason => rfl
  | ok a => exact h a rfl

lemma Trap.mapM_lift {view : α → β} {f : α → Except Fault γ} {f' : β → Except Trap γ} {as : List α}
    (h : ∀ a ∈ as, f' (view a) = lift id (f a)) :
    (as.map view).mapM f' = lift id (as.mapM f) := by
  induction as with
  | nil => rfl
  | cons a as ih =>
    obtain ⟨hfirst, hrest⟩ := List.forall_mem_cons.1 h
    rw [List.map_cons, List.mapM_cons, List.mapM_cons, hfirst, ih hrest]
    exact lift_bind fun b _ => lift_bind fun bs _ => rfl

end Outcomes

/-! ### Items as views -/

namespace Item

/-- The item with its whole right-hand side. -/
def counted (item : Item) : Counted :=
  ⟨item.lhs, item.rhs, item.pending.length, item.finish, item.parsed⟩

variable {item moved : Item} {tree : Tree} {next symbol : Symbol} {pending : List Symbol}

lemma lhs_counted (item : Item) : item.counted.lhs = item.lhs := rfl

lemma finish_counted (item : Item) : item.counted.finish = item.finish := rfl

/-- A view has matched a tree for every symbol behind its dot, and every item of that kind is a
view. -/
theorem exists_counted_iff {c : Counted} : (∃ item : Item, item.counted = c) ↔
    c.pending ≤ c.rhs.length ∧ c.parsed.map Tree.symbol = c.rhs.drop c.pending := by
  constructor
  · rintro ⟨item, rfl⟩
    have hlength : item.pending.length = item.pending.reverse.length := List.length_reverse.symm
    refine ⟨by simp [counted, Item.rhs], ?_⟩
    rw [counted, Item.rhs, hlength, List.drop_left]
  · rintro ⟨hle, hparsed⟩
    refine ⟨⟨c.lhs, (c.rhs.take c.pending).reverse, c.finish, c.parsed⟩, ?_⟩
    rw [counted, Item.rhs, List.reverse_reverse, hparsed, List.take_append_drop,
      List.length_reverse, List.length_take, Nat.min_eq_left hle]

lemma counted_predict (lhs : Symbol) (rhs : List Symbol) (finish : ℕ) :
    (predict lhs rhs finish).counted = .predict lhs rhs finish := by
  rw [counted, rhs_predict]
  simp [predict, Counted.predict]

lemma isFinished_counted (item : Item) : item.counted.isFinished = item.pending.isEmpty := by
  rw [Counted.isFinished, counted]
  cases item.pending <;> rfl

lemma elementAt_rhs (h : item.pending = next :: pending) :
    elementAt item.counted.rhs (item.counted.pending - 1) = .ok next := by
  have hget : item.rhs[item.pending.length - 1]? = some next := by
    simp [Item.rhs, h]
  rw [elementAt, counted, hget]

lemma waitsFor_counted (item : Item) (symbol : Symbol) :
    item.counted.waitsFor symbol = .ok (decide (item.pending.head? = some symbol)) := by
  rw [Counted.waitsFor, isFinished_counted]
  cases hpending : item.pending with
  | nil => rfl
  | cons next pending =>
    rw [elementAt_rhs hpending]
    simp [pure, Except.pure, bind, Except.bind]

lemma nextSymbol_counted (h : item.pending = next :: pending) :
    item.counted.nextSymbol = .ok next := by
  rw [Counted.nextSymbol, isFinished_counted, h, elementAt_rhs h]
  rfl

lemma advance_counted (h : item.advance? tree = some moved) :
    item.counted.advance tree = .ok moved.counted := by
  have hrhs := rhs_of_advance? h
  obtain ⟨pending, hpending, rfl⟩ := advance?_eq_some_iff.1 h
  rw [Counted.advance, isFinished_counted, hpending, counted, counted, hrhs]
  simp [hpending]

lemma complete_counted (h : item.pending = []) :
    item.counted.complete = Trap.lift id item.complete := by
  rw [Counted.complete, isFinished_counted, h, Trap.mapError_eq_lift]
  rfl

lemma rootTree_counted (h : item.pending = []) :
    item.counted.rootTree = Trap.lift id item.rootTree := by
  obtain ⟨lhs, pending, finish, parsed⟩ := item
  obtain rfl : pending = [] := h
  match parsed with
  | [] => rfl
  | [_] => rfl
  | _ :: _ :: _ => rfl

lemma unmatched_counted (item : Item) : item.counted.unmatched = .ok item.pending.reverse := by
  have hle : item.pending.length ≤ item.rhs.length := by simp [Item.rhs]
  rw [Counted.unmatched, counted, if_pos hle]
  simp [Item.rhs]

/-- The matched trees tell the pending symbols from the rest of the right-hand side. -/
lemma beq_counted (a b : Item) : (a.counted == b.counted) = (a == b) := by
  have hsymbols (h : a.parsed.map Tree.shape = b.parsed.map Tree.shape) :
      a.parsed.map Tree.symbol = b.parsed.map Tree.symbol := by
    simpa [Function.comp_def] using congrArg (List.map Shape.root) h
  rw [Bool.eq_iff_iff, Counted.beq_iff, beq_iff]
  constructor
  · rintro ⟨hfinish, _, hlhs, hrhs, hparsed⟩
    replace hrhs : a.rhs = b.rhs := hrhs
    rw [Item.rhs, Item.rhs, hsymbols hparsed] at hrhs
    exact ⟨hlhs, hfinish, List.reverse_injective (List.append_cancel_right hrhs), hparsed⟩
  · rintro ⟨hlhs, hfinish, hpending, hparsed⟩
    have hrhs : a.rhs = b.rhs := by rw [Item.rhs, Item.rhs, hpending, hsymbols hparsed]
    exact ⟨hfinish, congrArg List.length hpending, hlhs, hrhs, hparsed⟩

lemma contains_counted (items : OrderedSet Item) (item : Item) :
    (items.toList.map counted).contains item.counted = items.contains item := by
  rw [OrderedSet.contains_eq, List.elem_eq_contains, List.contains_eq_any_beq,
    List.contains_eq_any_beq, List.any_map]
  exact congrArg (List.any items.toList) (funext fun known => beq_counted item known)

/-- Items that wait for a symbol are moved without a breach. -/
lemma advanceAll_counted (h : tree.symbol = symbol) (parents : List Item) :
    advanceAll symbol tree (parents.map counted) =
      .ok ((parents.filterMap fun parent => parent.advance? tree).map counted) := by
  induction parents with
  | nil => rfl
  | cons parent parents ih =>
    rw [List.map_cons, advanceAll, waitsFor_counted, ih, List.filterMap_cons]
    cases hadvance : parent.advance? tree with
    | none =>
      have hother : parent.pending.head? ≠ some symbol := by
        intro hhead
        obtain ⟨pending, hpending⟩ := List.head?_eq_some_iff.1 hhead
        simp [advance?, hpending, h] at hadvance
      rw [decide_eq_false hother]
      rfl
    | some moved =>
      obtain ⟨pending, hpending, _⟩ := advance?_eq_some_iff.1 hadvance
      rw [hpending, List.head?_cons, h, decide_eq_true rfl]
      show (parent.counted.advance tree >>= fun moved => _) = _
      rw [advance_counted hadvance]
      rfl

/-- An item is moved over the trees for its next symbol without a breach. -/
lemma mapM_advance_counted (h : item.pending = next :: pending) (trees : List Tree) :
    (trees.filter fun tree => tree.symbol = next).mapM item.counted.advance =
      .ok ((trees.filterMap item.advance?).map counted) := by
  induction trees with
  | nil => rfl
  | cons tree trees ih =>
    rw [List.filter_cons, List.filterMap_cons]
    by_cases hsymbol : tree.symbol = next
    · have hadvance : item.advance? tree =
          some { item with pending, parsed := tree :: item.parsed } :=
        advance?_eq_some_iff.2 ⟨pending, hsymbol ▸ h, rfl⟩
      rw [if_pos (decide_eq_true hsymbol), List.mapM_cons, advance_counted hadvance, ih, hadvance]
      rfl
    · have hadvance : item.advance? tree = none := by
        simp [advance?, h, Ne.symm hsymbol]
      rw [if_neg (by simpa using hsymbol), ih, hadvance]

end Item

/-! ### One position -/

namespace Position

variable {g : Grammar} {limit position : ℕ} {later : List Position} {start : Symbol}
  {tokens : List (Option Symbol)} {seeds : List Item} {chart : List (List Counted)}

/-- The places that can be looked up from a position hold what stands there. -/
def Mirrors (tokens : List (Option Symbol)) (later : List Position) (position : ℕ)
    (chart : List (List Counted)) : Prop :=
  ∀ finish, position < finish → finish ≤ tokens.length →
    elementAt chart finish = .ok ((itemsAt later position finish).map Item.counted)

lemma Completes.symbol_mem {item : Item} {tree : Tree} (h : Completes g item tree)
    (hfits : item.Fits g start tokens position) :
    tree.symbol = item.lhs ∧ tree.symbol ∈ g.nonterminals := by
  have hsymbol : tree.symbol = item.lhs := by
    rw [← Tree.root_shape, Tree.shape_of_node h.tree, Shape.root_node]
  exact ⟨hsymbol, hsymbol ▸ (hfits.isDerivation h.pending h.lhs).1.mem_nonterminals⟩

lemma standing_counted (hchart : Mirrors tokens later position chart) (items : List Item)
    {finish : ℕ} (hle : position ≤ finish) (hfinish : finish ≤ tokens.length) :
    Checked.standing chart position (items.map Item.counted) finish =
      .ok ((standing later position items finish).map Item.counted) := by
  rw [Checked.standing, standing]
  split
  · rfl
  · next hne => exact hchart finish (Nat.lt_of_le_of_ne hle (Ne.symm hne)) hfinish

/-- A finished item looks for those that wait for it at a place that the chart has. -/
lemma completions_counted {items : OrderedSet Item} {item : Item}
    (hchart : Mirrors tokens later position chart) (hfits : item.Fits g start tokens position)
    (hpending : item.pending = []) (hlhs : item.lhs ≠ g.root) :
    Checked.completions chart position (items.toList.map Item.counted) item.counted =
      Trap.lift (Prod.map id (List.map Item.counted)) (item.complete >>= fun tree =>
        .ok (if item.finish = position then some tree else none,
          completed later position items item.finish tree)) := by
  rw [Checked.completions, Item.complete_counted hpending]
  refine Trap.lift_bind fun tree htree => ?_
  have hsymbol := (Completes.symbol_mem ⟨hpending, hlhs, htree⟩ hfits).1
  have hstanding := standing_counted hchart items.toList hfits.position_le hfits.finish_le
  rw [id_eq, Item.finish_counted, Item.lhs_counted, hstanding, ok_bind,
    Item.advanceAll_counted hsymbol, ok_bind, completed_eq]
  rfl

/-- Trees of the empty word are for nonterminals, so a terminal has none to be moved over. -/
lemma predictions_counted {empties : Array Tree} {item : Item} {next : Symbol}
    {pending : List Symbol} (hpending : item.pending = next :: pending)
    (hempties : ∀ tree ∈ empties.toList, tree.symbol ∈ g.nonterminals) :
    Checked.predictions g position empties.toList item.counted =
      .ok ((g.predictions position next ++ (empties.filterMap item.advance?).toList).map
        Item.counted) := by
  rw [Checked.predictions, Item.nextSymbol_counted hpending, Grammar.predictions,
    Grammar.alternatives, Array.toList_filterMap, ok_bind]
  cases halternatives : g.alternatives? next with
  | none =>
    have hterminal : next ∉ g.nonterminals := by
      simp [← Grammar.isSome_alternatives?, halternatives]
    have hnone : empties.toList.filterMap item.advance? = [] := by
      rw [List.filterMap_eq_nil_iff]
      intro tree htree
      have hother : next ≠ tree.symbol := fun h => hterminal (h ▸ hempties tree htree)
      simp [Item.advance?, hpending, hother]
    rw [hnone]
    rfl
  | some alternatives =>
    have hpredict : ((alternatives.map fun rhs => .predict next rhs position).map Item.counted :
        List Counted) = alternatives.map fun rhs => .predict next rhs position := by
      simp [Item.counted_predict]
    rw [Option.getD_some, List.map_append, hpredict, Item.mapM_advance_counted hpending]
    rfl

/-- An item that fits its position has the same consequences. -/
lemma consequences_counted (items : OrderedSet Item) {empties : Array Tree} {item : Item}
    (hchart : Mirrors tokens later position chart) (hfits : item.Fits g start tokens position)
    (hempties : ∀ tree ∈ empties.toList, tree.symbol ∈ g.nonterminals) :
    Checked.consequences g chart position (items.toList.map Item.counted) empties.toList
        item.counted =
      Trap.lift (Prod.map id (List.map Item.counted))
        (consequences g later position items empties item) := by
  rw [Checked.consequences, consequences, Item.unmatched_counted, ok_bind, Item.isFinished_counted,
    Item.lhs_counted]
  cases hpending : item.pending with
  | nil =>
    rw [List.isEmpty_nil, if_pos rfl]
    dsimp only
    split
    · rfl
    · next hlhs => exact completions_counted hchart hfits hpending hlhs
  | cons next pending =>
    rw [predictions_counted hpending hempties]
    rfl

lemma Tracked.symbol_mem {items queue : List Item} {empties : List Tree}
    (h : Tracked g later position seeds items empties queue)
    (hfits : ∀ item, Follows g later position seeds item → item.Fits g start tokens position) :
    ∀ tree ∈ empties, tree.symbol ∈ g.nonterminals := by
  intro tree htree
  obtain ⟨child, hchild, hcompletes, _⟩ := h.empties tree htree
  exact (hcompletes.symbol_mem (hfits child hchild)).2

/-- An item that is not known yet is added, and its consequences are those of the other loop. -/
lemma close_of_added {items : OrderedSet Item} {empties : Array Tree} {item : Item}
    {queue : List Item} (hchart : Mirrors tokens later position chart)
    (hfits : ∀ item, Follows g later position seeds item → item.Fits g start tokens position)
    (h : Tracked g later position seeds items.toList empties.toList (item :: queue))
    (hroom : items.size ≤ limit) (hnew : ¬items.contains item = true) :
    Checked.close g limit chart position (items.toList.map Item.counted) empties.toList
        ((item :: queue).map Item.counted) =
      Trap.lift (Prod.map id (List.map Item.counted))
          (consequences g later position (items.insert item) empties item) >>= fun next =>
        Checked.close g limit chart position ((items.insert item).toList.map Item.counted)
          (empties.toList ++ next.1.toList) (queue.map Item.counted ++ next.2) := by
  have hitem := hfits item (List.forall_mem_cons.1 h.queue).1
  have hturn := consequences_counted (items.insert item) hchart hitem (h.symbol_mem hfits)
  rw [toList_insert_of_new hnew, List.map_append] at hturn ⊢
  rw [List.map_cons, Checked.close, List.length_map, OrderedSet.length_toList, if_pos hroom,
    Item.contains_counted, if_neg hnew, ← hturn]
  rfl

/-- The two loops take the same turns. -/
theorem close_counted (limit : ℕ) {items : OrderedSet Item} {empties : Array Tree}
    {queue : Queue Item}
    (hchart : Mirrors tokens later position chart)
    (hfits : ∀ item, Follows g later position seeds item → item.Fits g start tokens position)
    (h : Tracked g later position seeds items.toList empties.toList queue.toList) :
    Checked.close g limit chart position (items.toList.map Item.counted) empties.toList
        (queue.toList.map Item.counted) =
      Trap.lift (fun cut =>
          ((close g limit later position items empties queue).1.toList.map Item.counted, cut))
        (close g limit later position items empties queue).2 := by
  -- Along the turns of the parser. `Tracked` says of every item that is drawn that it follows
  -- from the seeds, so that it fits and breaks no contract.
  fun_induction close g limit later position items empties queue with
  | case1 items empties queue hdraw =>
    rw [Queue.draw?_eq_none_iff.1 hdraw, List.map_nil, Checked.close]
    rfl
  | case2 items empties queue item rest hdraw _ hroom hknown ih =>
    rw [Queue.toList_of_draw? hdraw] at h ⊢
    rw [List.map_cons, Checked.close, List.length_map, OrderedSet.length_toList, if_pos hroom,
      Item.contains_counted, if_pos hknown]
    exact ih h.skip
  | case3 items empties queue item rest hdraw _ hroom hnew _ fault hconsequences =>
    rw [Queue.toList_of_draw? hdraw] at h ⊢
    rw [close_of_added hchart hfits h hroom hnew, hconsequences]
    rfl
  | case4 items empties queue item rest hdraw _ hroom hnew _ found following hconsequences ih =>
    have hleads := leads_of_consequences hconsequences
    rw [toList_insert_of_new hnew] at hleads
    rw [Queue.toList_of_draw? hdraw] at h ⊢
    have htracked := h.insert hleads
    rw [← toList_insert_of_new hnew] at htracked
    rw [toList_elim_push, Queue.toList_append, List.map_append] at ih
    rw [close_of_added hchart hfits h hroom hnew, hconsequences]
    exact ih htracked
  | case5 items empties queue item rest hdraw _ hfull =>
    rw [Queue.toList_of_draw? hdraw, List.map_cons, Checked.close, List.length_map,
      OrderedSet.length_toList, if_neg hfull]
    rfl

/-- A set that is grown from seeds is what the parser builds over them. -/
lemma build_counted (limit : ℕ) (hchart : Mirrors tokens later position chart)
    (hfits : ∀ item, Follows g later position seeds item → item.Fits g start tokens position) :
    Checked.close g limit chart position [] [] (seeds.map Item.counted) =
      Trap.lift (fun here => (here.items.map Item.counted, here.cut))
        (build g limit later position seeds).outcome := by
  have htracked : Tracked g later position seeds OrderedSet.empty.toList (#[] : Array Tree).toList
      (Queue.ofList seeds).toList := by
    simpa using Tracked.start g later position seeds
  have hclose := close_counted limit hchart hfits htracked
  rw [Queue.toList_ofList] at hclose
  rw [outcome_build]
  refine hclose.trans ?_
  cases (close g limit later position .empty #[] (.ofList seeds)).2 <;> rfl

/-! ### The chart -/

/-- The chart while it is filled: nothing in front of a position, then the sets found so far. -/
def filling (position : ℕ) (later : List Position) : List (List Counted) :=
  List.replicate position [] ++ later.map fun here => here.items.map Item.counted

lemma mirrors_filling (hcharts : Charts g limit start tokens (position + 1) later) :
    Mirrors tokens later position (filling (position + 1) later) := by
  intro finish hlt hle
  have hlength := hcharts.length_eq
  have hplace : finish - (position + 1) < later.length := by omega
  have hget : (filling (position + 1) later)[finish]? =
      some (later[finish - (position + 1)].items.map Item.counted) := by
    rw [filling, List.getElem?_append_right (by simpa using hlt), List.length_replicate,
      List.getElem?_map, List.getElem?_eq_getElem hplace, Option.map_some]
  rw [elementAt, hget, itemsAt, List.getElem?_eq_getElem hplace]
  rfl

lemma storeAt_filling (position : ℕ) (later : List Position) (here : Position) :
    storeAt (filling (position + 1) later) position (here.items.map Item.counted) =
      .ok (filling position (here :: later)) := by
  have hlt : position < (filling (position + 1) later).length := by
    rw [filling, List.length_append, List.length_replicate]
    omega
  rw [storeAt, if_pos hlt, filling, filling, List.replicate_succ', List.append_assoc,
    List.set_append_right _ _ (by simp), List.length_replicate, Nat.sub_self]
  rfl

lemma seeds_counted (hle : position ≤ tokens.length)
    (hcharts : Charts g limit start tokens (position + 1) later) :
    Checked.seeds g start tokens (filling (position + 1) later) position =
      .ok ((g.seeds start position (tokens.drop position) later).map Item.counted) := by
  rcases Nat.eq_or_lt_of_le hle with rfl | hlt
  · rw [Checked.seeds, if_pos rfl, List.drop_length, Grammar.seeds, Grammar.rootItem,
      List.map_cons, Item.counted_predict, List.map_nil]
  · have hget : elementAt tokens position = .ok tokens[position] := by
      rw [elementAt, List.getElem?_eq_getElem hlt]
    have hparents := mirrors_filling hcharts (position + 1) (Nat.lt_succ_self position) hlt
    rw [itemsAt, Nat.sub_self, ← List.head?_eq_getElem?] at hparents
    rw [Checked.seeds, if_neg (Nat.ne_of_lt hlt), hget, List.drop_eq_getElem_cons hlt,
      Grammar.seeds, ok_bind]
    cases tokens[position] with
    | none => rfl
    | some symbol =>
      cases later with
      | nil =>
        have hlength := hcharts.length_eq
        rw [List.length_nil] at hlength
        omega
      | cons next later =>
        have hsymbol : (g.leaf symbol).symbol = symbol := rfl
        dsimp only [scan]
        rw [hparents, ok_bind]
        split
        · rfl
        · exact Item.advanceAll_counted hsymbol next.items

lemma fill_counted (hle : position ≤ tokens.length)
    (hcharts : Charts g limit start tokens (position + 1) later) (cut : Bool) :
    fill g limit start tokens (filling (position + 1) later, cut) position =
      Trap.lift (fun here => (filling position (here :: later), cut || here.cut))
        (build g limit later position
          (g.seeds start position (tokens.drop position) later)).outcome := by
  have hfits : ∀ item, Follows g later position
      (g.seeds start position (tokens.drop position) later) item →
        item.Fits g start tokens position :=
    fun item => fits_of_follows hle hcharts
  rw [fill, seeds_counted hle hcharts, ok_bind,
    build_counted limit (mirrors_filling hcharts) hfits]
  cases (build g limit later position _).outcome with
  | error fault => rfl
  | ok here =>
    rw [Trap.lift_ok, ok_bind]
    dsimp only
    rw [storeAt_filling]
    rfl

lemma foldlM_fill {base : ℕ} (hbase : base ≤ tokens.length)
    (hcharts : Charts g limit start tokens base later) :
    (List.range base).reverse.foldlM (fill g limit start tokens)
        (filling base later, later.any Position.cut) =
      Trap.lift (fun chart => (filling 0 chart, chart.any Position.cut))
        ((tokens.take base).zipIdx.foldrM (prepend g limit) later).outcome := by
  -- The positions from `base` on are there already, and the token in front of them is next.
  induction base generalizing later with
  | zero => rfl
  | succ base ih =>
    have hlt : base < tokens.length := hbase
    have hseeds : g.seeds start base (tokens.drop base) later = scan g tokens[base] later := by
      rw [List.drop_eq_getElem_cons hlt, Grammar.seeds]
    have hlength : 0 + (tokens.take base).length = base := by
      rw [List.length_take]
      omega
    have hfill := fill_counted hlt.le hcharts (later.any Position.cut)
    rw [hseeds] at hfill
    rw [foldlM_reverse_range_succ, hfill, List.take_succ_eq_append_getElem hlt,
      List.zipIdx_append, hlength, List.foldrM_append, Logged.outcome_bind, List.zipIdx_singleton,
      List.foldrM_cons, List.foldrM_nil, pure_bind, prepend, Logged.outcome_bind]
    cases hbuilt : (build g limit later base (scan g tokens[base] later)).outcome with
    | error fault => rfl
    | ok here =>
      have hrest := ih hlt.le (.cons hlt.le hcharts (hseeds ▸ hbuilt))
      rw [List.any_cons, Bool.or_comm] at hrest
      exact hrest

/-- The chart that is filled is the chart of the parser. -/
lemma foldlM_fill_replicate (g : Grammar) (limit : ℕ) (start : Symbol)
    (tokens : List (Option Symbol)) :
    (List.range (tokens.length + 1)).reverse.foldlM (fill g limit start tokens)
        (List.replicate (tokens.length + 1) [], false) =
      Trap.lift (fun chart => (filling 0 chart, chart.any Position.cut))
        (g.chart limit start tokens).outcome := by
  have hempty : filling (tokens.length + 1) [] = List.replicate (tokens.length + 1) [] :=
    List.append_nil _
  have hcharts : Charts g limit start tokens (tokens.length + 1) [] := .nil
  have hfill := fill_counted le_rfl hcharts false
  rw [List.drop_length, Grammar.seeds, hempty] at hfill
  rw [foldlM_reverse_range_succ, hfill, Grammar.chart, Logged.outcome_bind]
  cases hlast : (build g limit [] tokens.length [g.rootItem start tokens.length]).outcome with
  | error fault => rfl
  | ok last =>
    have hrest := foldlM_fill le_rfl (charts_last hlast)
    rw [List.take_length, List.any_cons, List.any_nil, Bool.or_false] at hrest
    exact hrest

lemma elementAt_filling {chart : List Position} (hcharts : Charts g limit start tokens 0 chart) :
    elementAt (filling 0 chart) 0 = .ok ((itemsIn chart 0).map Item.counted) := by
  cases chart with
  | nil => cases hcharts.length_eq
  | cons first rest => rfl

end Position

/-! ### The parse -/

namespace Grammar

open Position

variable {g : Grammar} {start : Symbol} {limits : ParseLimits} {tokens : List (Option Symbol)}

lemma mapM_rootTree_counted (g : Grammar) (items : List Item) :
    ((items.map Item.counted).filter fun item => item.lhs = g.root && item.isFinished).mapM
        Counted.rootTree = Trap.lift id ((items.filter g.isFinishedRoot).mapM Item.rootTree) := by
  have hfilter : ((fun item => item.lhs = g.root && item.isFinished) ∘ Item.counted :
      Item → Bool) = g.isFinishedRoot := by
    funext item
    rw [Function.comp, Item.isFinished_counted]
    rfl
  rw [List.filter_map, hfilter]
  apply Trap.mapM_lift
  intro item hitem
  exact Item.rootTree_counted (isFinishedRoot_iff.1 (List.mem_filter.1 hitem).2).2

/-- The checked parser is the parser. -/
theorem checkedParse_eq (hcount : g.symbolCount < Symbol.reservedId) (limits : ParseLimits)
    (tokens : List (Option Symbol)) :
    g.checkedParse limits tokens = Trap.lift id (g.parse limits tokens).outcome := by
  rw [checkedParse, Symbol.ofIndex, if_pos hcount]
  cases hstart : g.start? with
  | none =>
    rw [parse, hstart]
    rfl
  | some start =>
    rw [outcome_parse hstart]
    show ((List.range (tokens.length + 1)).reverse.foldlM (fill g limits.stateSize start tokens)
      (List.replicate (tokens.length + 1) [], false) >>= fun _ => _) = _
    rw [foldlM_fill_replicate]
    refine Trap.lift_bind fun chart hchart => ?_
    show (elementAt (filling 0 chart) 0 >>= fun _ => _) = _
    rw [elementAt_filling (charts_of_chart hchart), derivations_eq]
    show ((((itemsIn chart 0).map Item.counted).filter fun item =>
      item.lhs = g.root && item.isFinished).mapM Counted.rootTree >>= fun _ => _) = _
    rw [mapM_rootTree_counted]
    cases ((itemsIn chart 0).filter g.isFinishedRoot).mapM Item.rootTree <;> rfl

/-- Some part of the input has a derivation tree that is too large to be measured. -/
def Overgrown (g : Grammar) (tokens : List (Option Symbol)) : Prop :=
  ∃ symbol shape, g.IsDerivation symbol shape ∧ shape.yield.map some <:+: tokens ∧ shape.Oversized

/-- A position that cannot be built has come to a tree that is too large. -/
lemma overgrown_of_stuck {limit position : ℕ} {fault : Fault} {later : List Position}
    (hstuck : Stuck g limit start tokens fault position later) :
    fault = .addOverflow ∧ g.Overgrown tokens := by
  obtain ⟨item, hfollows, hfaults⟩ := exists_faults_of_build hstuck.fault
  have hfits := fits_of_follows hstuck.position_le hstuck.rest hfollows
  obtain ⟨hfault, hderivation, hpart, hoversized⟩ := hfits.oversized hfaults
  exact ⟨hfault, item.lhs, _, hderivation, hpart, hoversized⟩

/-- The root item matches one tree, so one that does not belongs to a production for the root. -/
lemma arity_of_rootTree {item : Item} {position : ℕ} {fault : Fault}
    (hfits : item.Fits g start tokens position) (hroot : g.isFinishedRoot item = true)
    (h : item.rootTree = .error fault) :
    ∃ rhs, ⟨g.root, rhs⟩ ∈ g.productions ∧ rhs.length ≠ 1 ∧ fault = .rootArity rhs.length := by
  obtain ⟨hlhs, hpending⟩ := isFinishedRoot_iff.1 hroot
  have hrhs := Item.rhs_of_finished hpending
  have hlength : item.rhs.length = item.parsed.length := by rw [hrhs, List.length_map]
  unfold Item.rootTree at h
  split at h
  · cases h
  · next hmany =>
    have hone : item.rhs.length ≠ 1 := by
      rw [hlength, ne_eq, List.length_eq_one_iff]
      rintro ⟨tree, hparsed⟩
      exact hmany tree hparsed
    refine ⟨item.rhs, ?_, hone, ?_⟩
    · rcases hfits.production with hproduction | ⟨_, hstart, _⟩
      · exact hlhs ▸ hproduction
      · exact absurd (congrArg List.length hstart) hone
    · rw [hlength]
      exact (Except.error.inj h).symm

/-- A parse is kept from its outcome by a tree that is too large or by a production for the
root. -/
theorem fault_of_parse {fault : Fault} (h : (g.parse limits tokens).outcome = .error fault) :
    fault = .addOverflow ∧ g.Overgrown tokens ∨
      ∃ rhs, ⟨g.root, rhs⟩ ∈ g.productions ∧ rhs.length ≠ 1 ∧ fault = .rootArity rhs.length := by
  cases hstart : g.start? with
  | none =>
    rw [parse, hstart] at h
    cases h
  | some start =>
    rw [outcome_parse hstart] at h
    rcases bind_eq_error_iff.1 h with hchart | ⟨chart, hchart, htrees⟩
    · obtain ⟨position, later, hstuck⟩ := stuck_of_chart hchart
      exact .inl (overgrown_of_stuck hstuck)
    · right
      rw [map_eq_error_iff, derivations_eq] at htrees
      obtain ⟨item, hitem, hfault⟩ := exists_of_mapM_eq_error htrees
      obtain ⟨hmem, hroot⟩ := List.mem_filter.1 hitem
      exact arity_of_rootTree ((charts_of_chart hchart).fits 0 item hmem) hroot hfault

/-- Without productions given by symbols every symbol of a grammar has a name. -/
lemma namesAll_ofEdits {edits : List Edit} (h : ∀ production, .rule production ∉ edits) :
    (ofEdits edits).NamesAll := by
  apply (records_ofEdits edits).namesAll
  intro production hdraft
  obtain ⟨edit, hedit, hmem⟩ := List.mem_flatMap.1 hdraft
  exact h production (Edit.eq_rule_of_mem_drafts hmem ▸ hedit)

/-- The checked parser never breaks a contract, and with few enough names it is the parser. A fault
is one of three: there are too many names for a root symbol, a tree is too large, or the root
has a production whose length is not one. Edits by name alone leave the second only. -/
theorem traps_of_checkedParse (g : Grammar) (limits : ParseLimits)
    (tokens : List (Option Symbol)) :
    (∀ breach, g.checkedParse limits tokens ≠ .error (.breach breach)) ∧
    (g.symbolCount < Symbol.reservedId →
      g.checkedParse limits tokens = (g.parse limits tokens).outcome.mapError .fault) ∧
    (∀ fault, g.checkedParse limits tokens = .error (.fault fault) →
      fault = .symbolOutOfRange ∧ Symbol.reservedId ≤ g.symbolCount ∨
      fault = .addOverflow ∧ g.Overgrown tokens ∨
      ∃ rhs, ⟨⟨g.symbolCount⟩, rhs⟩ ∈ g.productions ∧ rhs.length ≠ 1 ∧
        fault = .rootArity rhs.length) ∧
    (∀ edits, g = ofEdits edits → (∀ production, .rule production ∉ edits) →
      g.symbolCount < Symbol.reservedId →
        (∃ parse, g.checkedParse limits tokens = .ok parse) ∨
        g.checkedParse limits tokens = .error (.fault .addOverflow) ∧ g.Overgrown tokens) := by
  by_cases hcount : g.symbolCount < Symbol.reservedId
  · rw [checkedParse_eq hcount]
    refine ⟨Trap.lift_ne_breach id _, fun _ => (Trap.mapError_eq_lift _).symm, ?_, ?_⟩
    · intro fault hfault
      exact .inr (fault_of_parse (Trap.lift_eq_fault_iff.1 hfault))
    · rintro edits rfl hplain _
      cases hparse : ((ofEdits edits).parse limits tokens).outcome with
      | ok parse => exact .inl ⟨parse, rfl⟩
      | error fault =>
        rcases fault_of_parse hparse with ⟨rfl, hovergrown⟩ | ⟨rhs, hproduction, _⟩
        · exact .inr ⟨rfl, hovergrown⟩
        · have hroot := (namesAll_ofEdits hplain).root_not_mem
          exact absurd (lhs_mem_nonterminals hproduction) hroot
  · have htrap : g.checkedParse limits tokens = .error (.fault .symbolOutOfRange) := by
      rw [checkedParse, Symbol.ofIndex, if_neg hcount]
      rfl
    rw [htrap]
    refine ⟨by simp, fun hfew => absurd hfew hcount, ?_, fun _ _ _ hfew => absurd hfew hcount⟩
    intro fault hfault
    obtain rfl := Trap.fault.inj (Except.error.inj hfault)
    exact .inl ⟨rfl, Nat.le_of_not_lt hcount⟩

/-- A symbol beyond the names is used as a nonterminal. It is the root symbol: `S → X` and
`X → a a`, where `X` has the first id without a name. -/
def rivalRoot : Grammar :=
  ofEdits [.name "S", .name "a", .rule ⟨⟨0⟩, [⟨2⟩]⟩, .rule ⟨⟨2⟩, [⟨1⟩, ⟨1⟩]⟩]

/-- A plain grammar of the same word, `S → X` and `X → a a`. -/
def plainPair : Grammar := ofEdits [.alternatives "S" "X", .alternatives "X" "aa"]

/-- The production of the rival root has two symbols, and its item is taken for that of the
root. -/
theorem traps_of_rivalRoot :
    rivalRoot.symbolCount < Symbol.reservedId ∧
      rivalRoot.checkedParse {} [some ⟨1⟩, some ⟨1⟩] = .error (.fault (.rootArity 2)) ∧
      (∃ rhs, ⟨⟨rivalRoot.symbolCount⟩, rhs⟩ ∈ rivalRoot.productions ∧ rhs.length ≠ 1 ∧
        Fault.rootArity 2 = .rootArity rhs.length) ∧
      (∀ breach, rivalRoot.checkedParse {} [some ⟨1⟩, some ⟨1⟩] ≠ .error (.breach breach)) ∧
      plainPair.symbolCount < Symbol.reservedId ∧
      (plainPair.checkedParse {} [some ⟨2⟩, some ⟨2⟩]).map Parse.isAmbiguous = .ok false ∧
      ((∃ parse, plainPair.checkedParse {} [some ⟨2⟩, some ⟨2⟩] = .ok parse) ∨
        plainPair.checkedParse {} [some ⟨2⟩, some ⟨2⟩] = .error (.fault .addOverflow) ∧
          plainPair.Overgrown [some ⟨2⟩, some ⟨2⟩]) := by
  obtain ⟨hbreach, hequal, hfault, _⟩ := traps_of_checkedParse rivalRoot {} [some ⟨1⟩, some ⟨1⟩]
  obtain ⟨_, hplainEqual, _, hplain⟩ := traps_of_checkedParse plainPair {} [some ⟨2⟩, some ⟨2⟩]
  have hcount : rivalRoot.symbolCount < Symbol.reservedId := by decide +kernel
  have hplainCount : plainPair.symbolCount < Symbol.reservedId := by decide +kernel
  have htrap : rivalRoot.checkedParse {} [some ⟨1⟩, some ⟨1⟩] =
      .error (.fault (.rootArity 2)) := by
    rw [hequal hcount]
    cbv
  have hrhs : ∃ rhs, ⟨⟨rivalRoot.symbolCount⟩, rhs⟩ ∈ rivalRoot.productions ∧ rhs.length ≠ 1 ∧
      Fault.rootArity 2 = .rootArity rhs.length := by
    simpa using hfault _ htrap
  have hrun : (plainPair.checkedParse {} [some ⟨2⟩, some ⟨2⟩]).map Parse.isAmbiguous =
      .ok false := by
    rw [hplainEqual hplainCount]
    cbv
  exact ⟨hcount, htrap, hrhs, hbreach, hplainCount, hrun,
    hplain _ rfl (by simp) hplainCount⟩

end Grammar

end ContextFree
