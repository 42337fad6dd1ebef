import ContextFree.Chart.Position
import ContextFree.Proofs.Outcomes
import ContextFree.Proofs.Productions

/-!
# Closing a position

A position is grown from its seeds by two rules: prediction and completion. What the loop reports is
known from what it finds (`grow_eq`), so all that is said below is about the loop without reports,
`Position.close`. Every item it adds follows from the seeds by the rules, whether or not the set is
cut (`follows_of_mem_close`). When the set is not cut, it has the seeds and lacks nothing that the
rules give (`closed_of_close`).

The second one is delicate for trees of the empty word: such a tree and an item that waits for
it live in the same growing set, and either may come first. The loop invariant `Settled` says
that each pair has been combined, by whichever of the two came last.
-/
namespace ContextFree

/-- An item with the shapes of its trees in place of the trees. -/
structure Dotted where
  lhs : Symbol
  pending : List Symbol
  finish : Nat
  matched : List Shape

namespace Item

/-- The item without names and measures. -/
def dotted (item : Item) : Dotted :=
  ⟨item.lhs, item.pending, item.finish, item.parsed.map Tree.shape⟩

/-- Items are equal when they differ in names and measures only. -/
theorem beq_iff_dotted {a b : Item} : (a == b) = true ↔ a.dotted = b.dotted := by
  simp [beq_iff, dotted, Dotted.mk.injEq, and_left_comm]

/-- Whether an item equal to the given one is in a row. -/
def In (item : Item) (items : List Item) : Prop := item.dotted ∈ items.map dotted

lemma in_of_mem {item : Item} {items : List Item} (h : item ∈ items) : item.In items :=
  List.mem_map_of_mem h

lemma in_iff {item : Item} {items : List Item} :
    item.In items ↔ ∃ known ∈ items, known.dotted = item.dotted := List.mem_map

lemma In.mono {item : Item} {items more : List Item} (h : item.In items)
    (hmore : ∀ known ∈ items, known.In more) : item.In more := by
  obtain ⟨known, hknown, heq⟩ := in_iff.1 h
  have := hmore known hknown
  rwa [In, heq] at this

lemma In.append_left {item : Item} {items : List Item} (h : item.In items) (more : List Item) :
    item.In (items ++ more) :=
  h.mono fun _ hknown => in_of_mem (List.mem_append_left more hknown)

lemma contains_iff_in {items : OrderedSet Item} {item : Item} :
    items.contains item = true ↔ item.In items.toList := by
  simp only [OrderedSet.contains_iff, in_iff, beq_iff_dotted, @eq_comm _ item.dotted]

end Item

namespace Position

variable {g : Grammar} {limit position finish : Nat} {later : List Position}

/-- The items that stand at `finish` while `items` are found at the position itself. -/
def standing (later : List Position) (position : Nat) (items : List Item) (finish : Nat) :
    List Item :=
  if finish = position then items else itemsAt later position finish

@[simp] theorem standing_self (items : List Item) :
    standing later position items position = items := if_pos rfl

lemma standing_of_ne (items : List Item) (h : finish ≠ position) :
    standing later position items finish = itemsAt later position finish := if_neg h

/-- A finished item of a nonterminal, with the tree it completes. -/
structure Completes (g : Grammar) (item : Item) (tree : Tree) : Prop where
  pending : item.pending = []
  lhs : item.lhs ≠ g.root
  tree : item.complete = .ok tree

/-- A finished item of a nonterminal whose tree cannot be built. -/
structure Faults (g : Grammar) (item : Item) (fault : Fault) : Prop where
  pending : item.pending = []
  lhs : item.lhs ≠ g.root
  tree : item.complete = .error fault

/-- What an item leads to that has just been added to `items`, one case for each kind of
item. -/
inductive Leads (g : Grammar) (later : List Position) (position : Nat) (items : List Item)
    (empties : List Tree) (item : Item) : Option Tree → List Item → Prop
  | unfinished (next : Symbol) (pending : List Symbol) (hpending : item.pending = next :: pending) :
      Leads g later position items empties item none
        (g.predictions position next ++ empties.filterMap item.advance?)
  | root (hpending : item.pending = []) (hlhs : item.lhs = g.root) :
      Leads g later position items empties item none []
  | finished (tree : Tree) (hcompletes : Completes g item tree) :
      Leads g later position items empties item
        (if item.finish = position then some tree else none)
        ((standing later position items item.finish).filterMap fun parent => parent.advance? tree)

theorem leads_of_consequences {items : OrderedSet Item} {empties : Array Tree} {item : Item}
    {found : Option Tree} {following : List Item}
    (h : consequences g later position items empties item = .ok (found, following)) :
    Leads g later position items.toList empties.toList item found following := by
  unfold consequences at h
  split at h
  · next next pending hpending =>
    obtain ⟨rfl, rfl⟩ := Prod.mk.inj (Except.ok.inj h)
    rw [Array.toList_filterMap]
    exact .unfinished next pending hpending
  · next hpending =>
    split at h
    · next hlhs =>
      obtain ⟨rfl, rfl⟩ := Prod.mk.inj (Except.ok.inj h)
      exact .root hpending hlhs
    · next hlhs =>
      obtain ⟨tree, hcomplete, h⟩ := bind_eq_ok_iff.1 h
      obtain ⟨rfl, rfl⟩ := Prod.mk.inj (Except.ok.inj h)
      rw [completed_eq]
      exact .finished tree ⟨hpending, hlhs, hcomplete⟩

lemma faults_of_consequences {items : OrderedSet Item} {empties : Array Tree} {item : Item}
    {fault : Fault} (h : consequences g later position items empties item = .error fault) :
    Faults g item fault := by
  unfold consequences at h
  split at h
  · cases h
  · next hpending =>
    split at h
    · cases h
    · next hlhs =>
      rcases bind_eq_error_iff.1 h with hcomplete | ⟨_, _, h⟩
      · exact ⟨hpending, hlhs, hcomplete⟩
      · cases h

/-! ### One turn of the loop -/

/-- The loop of `grow` without its reports, which keeps the set after a fault. -/
def close (g : Grammar) (limit : Nat) (later : List Position) (position : Nat)
    (items : OrderedSet Item) (empties : Array Tree) (queue : Queue Item) :
    OrderedSet Item × Except Fault Bool :=
  match hdraw : queue.draw? with
  | none => (items, .ok false)
  | some (item, rest) =>
    have := Queue.size_of_draw? hdraw
    if items.size ≤ limit then
      if hknown : items.contains item then
        close g limit later position items empties rest
      else
        have hmore : (items.insert item).size = items.size + 1 := by
          rw [OrderedSet.size_insert, if_neg hknown]
        match consequences g later position (items.insert item) empties item with
        | .error fault => (items.insert item, .error fault)
        | .ok (found, following) =>
          close g limit later position (items.insert item) (found.elim empties empties.push)
            (rest.append following)
    else (items, .ok true)
termination_by (limit + 1 - items.size, queue.size)

section Turn

variable {items : OrderedSet Item} {empties : Array Tree} {queue rest : Queue Item} {item : Item}

theorem close_of_empty (h : queue.draw? = none) :
    close g limit later position items empties queue = (items, .ok false) := by
  rw [close]
  split
  · rfl
  · next hdraw => rw [h] at hdraw; cases hdraw

theorem close_of_full (hdraw : queue.draw? = some (item, rest)) (hfull : limit < items.size) :
    close g limit later position items empties queue = (items, .ok true) := by
  rw [close]
  split
  · next hnone => rw [hdraw] at hnone; cases hnone
  · exact if_neg (Nat.not_le.2 hfull)

theorem close_of_known (hdraw : queue.draw? = some (item, rest)) (hroom : items.size ≤ limit)
    (hknown : items.contains item = true) :
    close g limit later position items empties queue =
      close g limit later position items empties rest := by
  rw [close]
  split
  · next hnone => rw [hdraw] at hnone; cases hnone
  · next other rest' hother =>
    obtain ⟨rfl, rfl⟩ := Prod.mk.inj (Option.some.inj (hdraw.symm.trans hother))
    rw [if_pos hroom, dif_pos hknown]

theorem close_of_fault (hdraw : queue.draw? = some (item, rest)) (hroom : items.size ≤ limit)
    (hnew : ¬items.contains item = true) {fault : Fault}
    (h : consequences g later position (items.insert item) empties item = .error fault) :
    close g limit later position items empties queue = (items.insert item, .error fault) := by
  rw [close]
  split
  · next hnone => rw [hdraw] at hnone; cases hnone
  · next other rest' hother =>
    obtain ⟨rfl, rfl⟩ := Prod.mk.inj (Option.some.inj (hdraw.symm.trans hother))
    rw [if_pos hroom, dif_neg hnew]
    simp only [h]

theorem close_of_new (hdraw : queue.draw? = some (item, rest)) (hroom : items.size ≤ limit)
    (hnew : ¬items.contains item = true) {found : Option Tree} {following : List Item}
    (h : consequences g later position (items.insert item) empties item = .ok (found, following)) :
    close g limit later position items empties queue =
      close g limit later position (items.insert item) (found.elim empties empties.push)
        (rest.append following) := by
  rw [close]
  split
  · next hnone => rw [hdraw] at hnone; cases hnone
  · next other rest' hother =>
    obtain ⟨rfl, rfl⟩ := Prod.mk.inj (Option.some.inj (hdraw.symm.trans hother))
    rw [if_pos hroom, dif_neg hnew]
    simp only [h]

lemma toList_insert_of_new (h : ¬items.contains item = true) :
    (items.insert item).toList = items.toList ++ [item] := by
  rw [OrderedSet.toList_insert, if_neg h]

lemma toList_push_added {reports : Array ChartEvent} (hnew : ¬items.contains item = true)
    (h : reports.toList = items.toList.map .added) :
    (reports.push (.added item)).toList = (items.insert item).toList.map .added := by
  rw [Array.toList_push, h, toList_insert_of_new hnew, List.map_append, List.map_singleton]

/-- What is reported after the items: a cut. -/
def cutReport (limit position : Nat) : Except Fault Bool → List ChartEvent
  | .ok true => [.truncated position limit]
  | _ => []

/-- The reports made in the course of the loop are the items found in the end, in their order, and
then a cut. -/
theorem grow_eq {reports : Array ChartEvent} (h : reports.toList = items.toList.map .added) :
    grow g limit later position reports items empties queue =
      ⟨(close g limit later position items empties queue).1.toList.map .added ++
          cutReport limit position (close g limit later position items empties queue).2,
        (close g limit later position items empties queue).2.map fun cut =>
          ((close g limit later position items empties queue).1, cut)⟩ := by
  -- In front of every turn the reports are the items found so far.
  fun_induction grow g limit later position reports items empties queue with
  | case1 reports items empties queue hdraw =>
    rw [close_of_empty hdraw, h, cutReport, List.append_nil]
    · rfl
    · simp
  | case2 reports items empties queue item rest hdraw _ hroom hknown ih =>
    rw [close_of_known hdraw hroom hknown, ih h]
  | case3 reports items empties queue item rest hdraw _ hroom hnew _ fault hconsequences =>
    rw [close_of_fault hdraw hroom hnew hconsequences, toList_push_added hnew h, cutReport,
      List.append_nil]
    · rfl
    · simp
  | case4 reports items empties queue item rest hdraw _ hroom hnew _ found following
      hconsequences ih =>
    rw [close_of_new hdraw hroom hnew hconsequences, ih (toList_push_added hnew h)]
  | case5 reports items empties queue item rest hdraw _ hfull =>
    rw [close_of_full hdraw (Nat.lt_of_not_le hfull), Array.toList_push, h]
    rfl

end Turn

/-! ### What is added follows from the seeds -/

/-- What prediction and completion make of the seeds of a position. -/
inductive Follows (g : Grammar) (later : List Position) (position : Nat) (seeds : List Item) :
    Item → Prop
  | seed {item : Item} (mem : item ∈ seeds) : Follows g later position seeds item
  | predict {item : Item} {next : Symbol} {pending rhs : List Symbol}
      (follows : Follows g later position seeds item) (hpending : item.pending = next :: pending)
      (hrhs : rhs ∈ g.alternatives next) :
      Follows g later position seeds (.predict next rhs position)
  | completeHere {child parent moved : Item} {tree : Tree}
      (follows : Follows g later position seeds child) (completes : Completes g child tree)
      (hfinish : child.finish = position) (parent_follows : Follows g later position seeds parent)
      (hmoved : parent.advance? tree = some moved) : Follows g later position seeds moved
  | completeLater {child parent moved : Item} {tree : Tree}
      (follows : Follows g later position seeds child) (completes : Completes g child tree)
      (hfinish : child.finish ≠ position) (mem : parent ∈ itemsAt later position child.finish)
      (hmoved : parent.advance? tree = some moved) : Follows g later position seeds moved

variable {seeds : List Item}

/-- A tree of the empty word that is kept aside was completed at the position. -/
def Justified (g : Grammar) (later : List Position) (position : Nat) (seeds : List Item)
    (tree : Tree) : Prop :=
  ∃ child, Follows g later position seeds child ∧ Completes g child tree ∧ child.finish = position

lemma Leads.follows {items : List Item} {empties : List Tree} {item : Item} {found : Option Tree}
    {following : List Item} (h : Leads g later position items empties item found following)
    (hitem : Follows g later position seeds item)
    (hitems : ∀ known ∈ items, Follows g later position seeds known)
    (hempties : ∀ tree ∈ empties, Justified g later position seeds tree) :
    (∀ tree ∈ found, Justified g later position seeds tree) ∧
      ∀ moved ∈ following, Follows g later position seeds moved := by
  cases h with
  | unfinished next pending hpending =>
    refine ⟨by simp, fun moved hmoved => ?_⟩
    rcases List.mem_append.1 hmoved with hpredict | hadvance
    · obtain ⟨rhs, hrhs, rfl⟩ := List.mem_map.1 hpredict
      exact hitem.predict hpending hrhs
    · obtain ⟨tree, htree, hadvance⟩ := List.mem_filterMap.1 hadvance
      obtain ⟨child, hchild, hcompletes, hfinish⟩ := hempties tree htree
      exact hchild.completeHere hcompletes hfinish hitem hadvance
  | root => simp
  | finished tree hcompletes =>
    by_cases hfinish : item.finish = position
    · rw [if_pos hfinish, hfinish, standing_self]
      refine ⟨?_, fun moved hmoved => ?_⟩
      · intro found hfound
        rw [← Option.mem_some.1 hfound]
        exact ⟨item, hitem, hcompletes, hfinish⟩
      · obtain ⟨parent, hparent, hadvance⟩ := List.mem_filterMap.1 hmoved
        exact hitem.completeHere hcompletes hfinish (hitems parent hparent) hadvance
    · rw [if_neg hfinish, standing_of_ne items hfinish]
      refine ⟨by simp, fun moved hmoved => ?_⟩
      obtain ⟨parent, hparent, hadvance⟩ := List.mem_filterMap.1 hmoved
      exact hitem.completeLater hcompletes hfinish hparent hadvance

lemma toList_elim_push (empties : Array Tree) (found : Option Tree) :
    (found.elim empties empties.push).toList = empties.toList ++ found.toList := by
  cases found <;> simp

/-- Everything that the loop works on follows from the seeds. -/
structure Tracked (g : Grammar) (later : List Position) (position : Nat) (seeds items : List Item)
    (empties : List Tree) (queue : List Item) : Prop where
  items : ∀ item ∈ items, Follows g later position seeds item
  empties : ∀ tree ∈ empties, Justified g later position seeds tree
  queue : ∀ item ∈ queue, Follows g later position seeds item

namespace Tracked

variable {items queue : List Item} {empties : List Tree} {item : Item}

lemma start (g : Grammar) (later : List Position) (position : Nat) (seeds : List Item) :
    Tracked g later position seeds [] [] seeds where
  items := by simp
  empties := by simp
  queue _ hitem := .seed hitem

lemma skip (h : Tracked g later position seeds items empties (item :: queue)) :
    Tracked g later position seeds items empties queue where
  items := h.items
  empties := h.empties
  queue := (List.forall_mem_cons.1 h.queue).2

lemma perm (h : Tracked g later position seeds items empties queue) {other : List Item}
    (hperm : queue.Perm other) : Tracked g later position seeds items empties other where
  items := h.items
  empties := h.empties
  queue item hitem := h.queue item (hperm.mem_iff.2 hitem)

lemma added (h : Tracked g later position seeds items empties (item :: queue)) :
    ∀ known ∈ items ++ [item], Follows g later position seeds known :=
  List.forall_mem_append.2 ⟨h.items, by simpa using (List.forall_mem_cons.1 h.queue).1⟩

lemma insert {found : Option Tree} {following : List Item}
    (h : Tracked g later position seeds items empties (item :: queue))
    (hleads : Leads g later position (items ++ [item]) empties item found following) :
    Tracked g later position seeds (items ++ [item]) (empties ++ found.toList)
      (queue ++ following) := by
  obtain ⟨hitem, hqueue⟩ := List.forall_mem_cons.1 h.queue
  obtain ⟨hfound, hfollowing⟩ := hleads.follows hitem h.added h.empties
  exact ⟨h.added, List.forall_mem_append.2 ⟨h.empties, by simpa using hfound⟩,
    List.forall_mem_append.2 ⟨hqueue, hfollowing⟩⟩

end Tracked

/-- Everything in the set follows from the seeds, also when it is cut and after a fault. -/
theorem follows_of_mem_close {items : OrderedSet Item} {empties : Array Tree} {queue : Queue Item}
    (h : Tracked g later position seeds items.toList empties.toList queue.toList) :
    ∀ item ∈ (close g limit later position items empties queue).1.toList,
      Follows g later position seeds item := by
  fun_induction close g limit later position items empties queue with
  | case1 => exact h.items
  | case2 items empties queue item rest hdraw _ _ _ ih =>
    rw [Queue.toList_of_draw? hdraw] at h
    exact ih h.skip
  | case3 items empties queue item rest hdraw _ _ hnew =>
    rw [Queue.toList_of_draw? hdraw] at h
    rw [toList_insert_of_new hnew]
    exact h.added
  | case4 items empties queue item rest hdraw _ _ hnew _ found following hconsequences ih =>
    have hleads := leads_of_consequences hconsequences
    rw [toList_insert_of_new hnew] at hleads ih
    rw [Queue.toList_of_draw? hdraw] at h
    rw [toList_elim_push, Queue.toList_append] at ih
    exact ih (h.insert hleads)
  | case5 => exact h.items

/-- A fault is that of an item in the set. -/
theorem exists_faults_of_close {items result : OrderedSet Item} {empties : Array Tree}
    {queue : Queue Item} {fault : Fault}
    (hclose : close g limit later position items empties queue = (result, .error fault)) :
    ∃ item ∈ result.toList, Faults g item fault := by
  fun_induction close g limit later position items empties queue with
  | case1 => cases (Prod.mk.inj hclose).2
  | case2 items empties queue item rest hdraw _ _ _ ih => exact ih hclose
  | case3 items empties queue item rest hdraw _ _ hnew _ fault' hconsequences =>
    obtain ⟨rfl, hfault⟩ := Prod.mk.inj hclose
    obtain rfl := Except.error.inj hfault
    refine ⟨item, ?_, faults_of_consequences hconsequences⟩
    rw [toList_insert_of_new hnew]
    exact List.mem_append_right _ (List.mem_singleton_self item)
  | case4 items empties queue item rest hdraw _ _ hnew _ found following _ ih => exact ih hclose
  | case5 => cases (Prod.mk.inj hclose).2

/-- A set is cut only when it has more items than the limit allows. -/
theorem lt_size_of_close {items result : OrderedSet Item} {empties : Array Tree}
    {queue : Queue Item}
    (hclose : close g limit later position items empties queue = (result, .ok true)) :
    limit < result.size := by
  fun_induction close g limit later position items empties queue with
  | case1 => cases (Prod.mk.inj hclose).2
  | case2 items empties queue item rest hdraw _ _ _ ih => exact ih hclose
  | case3 => cases (Prod.mk.inj hclose).2
  | case4 items empties queue item rest hdraw _ _ hnew _ found following _ ih => exact ih hclose
  | case5 items empties queue item rest hdraw _ hfull =>
    obtain ⟨rfl, _⟩ := Prod.mk.inj hclose
    exact Nat.lt_of_not_le hfull

/-! ### Nothing is missing unless the set is cut -/

/-- The items of a position lack nothing that prediction and completion give. -/
structure Closed (g : Grammar) (later : List Position) (position : Nat) (items : List Item) :
    Prop where
  predicted : ∀ item ∈ items, ∀ next pending, item.pending = next :: pending →
    ∀ rhs ∈ g.alternatives next, (Item.predict next rhs position).In items
  completed : ∀ child ∈ items, child.pending = [] → child.lhs ≠ g.root →
    ∃ tree, child.complete = .ok tree ∧
      ∀ parent ∈ standing later position items child.finish, ∀ moved,
        parent.advance? tree = some moved → moved.In items

/-- What prediction and completion give for `items` is among the `known` ones, which are those
found and those still waiting. Every tree of the empty word completed so far has met every item
found so far. -/
structure Settled (g : Grammar) (later : List Position) (position : Nat)
    (known items : List Item) (empties : List Tree) : Prop where
  predicted : ∀ item ∈ items, ∀ next pending, item.pending = next :: pending →
    ∀ rhs ∈ g.alternatives next, (Item.predict next rhs position).In known
  completed : ∀ child ∈ items, child.pending = [] → child.lhs ≠ g.root →
    ∃ tree, child.complete = .ok tree ∧ (child.finish = position → tree ∈ empties) ∧
      (child.finish ≠ position → ∀ parent ∈ itemsAt later position child.finish, ∀ moved,
        parent.advance? tree = some moved → moved.In known)
  combined : ∀ parent ∈ items, ∀ tree ∈ empties, ∀ moved,
    parent.advance? tree = some moved → moved.In known

namespace Settled

variable {known items : List Item} {empties : List Tree}

lemma start (known : List Item) : Settled g later position known [] [] where
  predicted := by simp
  completed := by simp
  combined := by simp

lemma mono (h : Settled g later position known items empties) {more : List Item}
    (hmore : ∀ item ∈ known, item.In more) : Settled g later position more items empties where
  predicted item hitem next pending hpending rhs hrhs :=
    (h.predicted item hitem next pending hpending rhs hrhs).mono hmore
  completed child hchild hpending hlhs := by
    obtain ⟨tree, hcomplete, hhere, hlater⟩ := h.completed child hchild hpending hlhs
    exact ⟨tree, hcomplete, hhere, fun hfinish parent hparent moved hmoved =>
      (hlater hfinish parent hparent moved hmoved).mono hmore⟩
  combined parent hparent tree htree moved hmoved :=
    (h.combined parent hparent tree htree moved hmoved).mono hmore

/-- When nothing waits any more the position is closed. -/
lemma closed (h : Settled g later position items items empties) :
    Closed g later position items where
  predicted := h.predicted
  completed child hchild hpending hlhs := by
    obtain ⟨tree, hcomplete, hhere, hlater⟩ := h.completed child hchild hpending hlhs
    refine ⟨tree, hcomplete, fun parent hparent moved hmoved => ?_⟩
    by_cases hfinish : child.finish = position
    · rw [hfinish, standing_self] at hparent
      exact h.combined parent hparent tree (hhere hfinish) moved hmoved
    · rw [standing_of_ne items hfinish] at hparent
      exact hlater hfinish parent hparent moved hmoved

/-- Adding an item settles it with everything found so far, once its consequences are known. -/
lemma insert {item : Item} {found : Option Tree} {following : List Item}
    (h : Settled g later position known items empties)
    (hleads : Leads g later position (items ++ [item]) empties item found following) :
    Settled g later position (known ++ following) (items ++ [item])
      (empties ++ found.toList) := by
  have hold : Settled g later position (known ++ following) items empties :=
    h.mono fun item hitem => (Item.in_of_mem hitem).append_left following
  have hnew : ∀ {moved : Item}, moved ∈ following → moved.In (known ++ following) :=
    fun hmoved => Item.in_of_mem (List.mem_append_right known hmoved)
  cases hleads with
  | unfinished next pending hpending =>
    rw [Option.toList_none, List.append_nil]
    constructor
    · refine List.forall_mem_append.2 ⟨hold.predicted, List.forall_mem_singleton.2 ?_⟩
      intro next' pending' hpending' rhs hrhs
      rw [hpending] at hpending'
      obtain ⟨rfl, rfl⟩ := List.cons.inj hpending'
      exact hnew (List.mem_append_left _ (List.mem_map_of_mem hrhs))
    · refine List.forall_mem_append.2 ⟨hold.completed, List.forall_mem_singleton.2 ?_⟩
      simp [hpending]
    · refine List.forall_mem_append.2 ⟨hold.combined, List.forall_mem_singleton.2 ?_⟩
      intro tree htree moved hmoved
      exact hnew (List.mem_append_right _ (List.mem_filterMap.2 ⟨tree, htree, hmoved⟩))
  | root hpending hlhs =>
    simp only [Option.toList_none, List.append_nil] at hold ⊢
    constructor
    · refine List.forall_mem_append.2 ⟨hold.predicted, List.forall_mem_singleton.2 ?_⟩
      simp [hpending]
    · refine List.forall_mem_append.2 ⟨hold.completed, List.forall_mem_singleton.2 ?_⟩
      simp [hlhs]
    · refine List.forall_mem_append.2 ⟨hold.combined, List.forall_mem_singleton.2 ?_⟩
      simp [Item.advance?, hpending]
  | finished tree hcompletes =>
    have hpending := hcompletes.pending
    constructor
    · refine List.forall_mem_append.2 ⟨hold.predicted, List.forall_mem_singleton.2 ?_⟩
      simp [hpending]
    · refine List.forall_mem_append.2 ⟨?_, List.forall_mem_singleton.2 ?_⟩
      · intro child hchild hfinished hlhs
        obtain ⟨tree, hcomplete, hhere, hlater⟩ := hold.completed child hchild hfinished hlhs
        exact ⟨tree, hcomplete, fun hfinish => List.mem_append_left _ (hhere hfinish), hlater⟩
      · intro _ _
        refine ⟨tree, hcompletes.tree, fun hfinish => by simp [hfinish], ?_⟩
        intro hfinish parent hparent moved hmoved
        refine hnew (List.mem_filterMap.2 ⟨parent, ?_, hmoved⟩)
        rwa [standing_of_ne _ hfinish]
    · intro parent hparent tree' htree' moved hmoved
      rcases List.mem_append.1 htree' with hempty | hfound
      · rcases List.mem_append.1 hparent with hparent | hparent
        · exact hold.combined parent hparent tree' hempty moved hmoved
        · rw [List.mem_singleton.1 hparent] at hmoved
          simp [Item.advance?, hpending] at hmoved
      · by_cases hfinish : item.finish = position
        · rw [if_pos hfinish, Option.toList_some, List.mem_singleton] at hfound
          refine hnew (List.mem_filterMap.2 ⟨parent, ?_, hfound ▸ hmoved⟩)
          rwa [hfinish, standing_self]
        · simp [hfinish] at hfound

end Settled

/-! ### Drawing in any order -/

/-- A run of the closing loop to the end of its queue, in which any item that waits may be drawn
next: from the items found so far, the trees of the empty word among them and the items that wait,
to the items found in the end. -/
inductive Drains (g : Grammar) (later : List Position) (position : Nat) :
    (items : List Item) → (empties : List Tree) → (queue result : List Item) → Prop
  | done (items : List Item) (empties : List Tree) : Drains g later position items empties [] items
  /-- An item that is there already is dropped. -/
  | known {items queue rest result : List Item} {empties : List Tree} {item : Item}
      (hdraw : queue.Perm (item :: rest)) (hknown : item.In items)
      (run : Drains g later position items empties rest result) :
      Drains g later position items empties queue result
  /-- A new item is added, and what it leads to waits with the others. -/
  | new {items queue rest following result : List Item} {empties : List Tree} {item : Item}
      {found : Option Tree} (hdraw : queue.Perm (item :: rest)) (hnew : ¬item.In items)
      (hleads : Leads g later position (items ++ [item]) empties item found following)
      (run : Drains g later position (items ++ [item]) (empties ++ found.toList)
        (rest ++ following) result) :
      Drains g later position items empties queue result

/-- A set that is not cut comes from a run that draws the items in the order of the queue. -/
theorem drains_of_close {items result : OrderedSet Item} {empties : Array Tree}
    {queue : Queue Item}
    (hclose : close g limit later position items empties queue = (result, .ok false)) :
    Drains g later position items.toList empties.toList queue.toList result.toList := by
  fun_induction close g limit later position items empties queue with
  | case1 items empties queue hdraw =>
    obtain ⟨rfl, _⟩ := Prod.mk.inj hclose
    rw [Queue.draw?_eq_none_iff.1 hdraw]
    exact .done items.toList empties.toList
  | case2 items empties queue item rest hdraw _ _ hknown ih =>
    rw [Queue.toList_of_draw? hdraw]
    exact .known (.refl _) (Item.contains_iff_in.1 hknown) (ih hclose)
  | case3 => cases (Prod.mk.inj hclose).2
  | case4 items empties queue item rest hdraw _ _ hnew _ found following hconsequences ih =>
    have hleads := leads_of_consequences hconsequences
    have hrun := ih hclose
    rw [toList_insert_of_new hnew] at hleads hrun
    rw [Queue.toList_append, toList_elim_push] at hrun
    rw [Queue.toList_of_draw? hdraw]
    exact .new (.refl _) (fun hin => hnew (Item.contains_iff_in.2 hin)) hleads hrun
  | case5 => cases (Prod.mk.inj hclose).2

namespace Drains

variable {items queue result : List Item} {empties : List Tree}

/-- Everything that is found follows from the seeds, whatever is drawn first. -/
theorem follows (h : Drains g later position items empties queue result)
    (htracked : Tracked g later position seeds items empties queue) :
    ∀ item ∈ result, Follows g later position seeds item := by
  induction h with
  | done => exact htracked.items
  | known hdraw _ _ ih => exact ih (htracked.perm hdraw).skip
  | new hdraw _ hleads _ ih => exact ih ((htracked.perm hdraw).insert hleads)

/-- Everything that was waiting is kept, and nothing is missing in the end, whatever is drawn
first. -/
theorem closed (h : Drains g later position items empties queue result)
    (hsettled : Settled g later position (items ++ queue) items empties) :
    (∀ item ∈ items ++ queue, item.In result) ∧ Closed g later position result := by
  induction h with
  | done items empties =>
    rw [List.append_nil] at hsettled ⊢
    exact ⟨fun item hitem => Item.in_of_mem hitem, hsettled.closed⟩
  | @known items queue rest result empties item hdraw hknown _ ih =>
    have hless : ∀ other ∈ items ++ queue, other.In (items ++ rest) := by
      intro other hmem
      rcases List.mem_append.1 hmem with hmem | hmem
      · exact Item.in_of_mem (List.mem_append_left _ hmem)
      · rcases List.mem_cons.1 (hdraw.mem_iff.1 hmem) with rfl | hmem
        · exact hknown.append_left _
        · exact Item.in_of_mem (List.mem_append_right _ hmem)
    obtain ⟨hkeeps, hclosed⟩ := ih (hsettled.mono hless)
    exact ⟨fun other hmem => (hless other hmem).mono hkeeps, hclosed⟩
  | @new items queue rest following result empties item found hdraw _ hleads _ ih =>
    have hmore : ∀ other ∈ items ++ queue ++ following,
        other ∈ items ++ [item] ++ (rest ++ following) := by
      intro other hmem
      have := hdraw.mem_iff (a := other)
      simp only [List.mem_append, List.mem_cons, List.not_mem_nil, or_false] at hmem this ⊢
      tauto
    obtain ⟨hkeeps, hclosed⟩ :=
      ih ((hsettled.insert hleads).mono fun other hmem => Item.in_of_mem (hmore other hmem))
    exact ⟨fun other hmem => hkeeps other (hmore other (List.mem_append_left _ hmem)), hclosed⟩

end Drains

/-- A set that is not cut keeps everything that was waiting, and is closed. -/
theorem closed_of_close {items result : OrderedSet Item} {empties : Array Tree}
    {queue : Queue Item}
    (hsettled : Settled g later position (items.toList ++ queue.toList) items.toList empties.toList)
    (hclose : close g limit later position items empties queue = (result, .ok false)) :
    (∀ item ∈ items.toList ++ queue.toList, item.In result.toList) ∧
      Closed g later position result.toList :=
  (drains_of_close hclose).closed hsettled

end Position

end ContextFree
