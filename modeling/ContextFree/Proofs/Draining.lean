import ContextFree.Grammar.Text
import ContextFree.Proofs.Limiting
import Mathlib

/-!
# A closed position is the least one

A position that is not cut has exactly the items that every set of items has that contains the
seeds of the position and is closed under prediction and completion. The least such set does not
depend on the order in which the loop draws its items, nor on the order of the seeds, so any two
runs to the end find the same items.

The positions to the right may have been cut. They are only looked at, never changed.
-/
namespace ContextFree

namespace Position

variable {g : Grammar} {limit position : ℕ} {start : Symbol} {tokens : List (Option Symbol)}
  {later : List Position} {here : Position} {item : Item} {result : List Item}

/-- A set of items at a position that contains the seeds of the position and lacks nothing that
prediction and completion give. A completed item meets the items of the set itself when it has
matched the empty word, else those of the position to the right where its match began. -/
structure ClosedUnder (g : Grammar) (start : Symbol) (tokens : List (Option Symbol))
    (later : List Position) (position : ℕ) (found : Set Item) : Prop where
  root : position = tokens.length → g.rootItem start position ∈ found
  scan : ∀ symbol, tokens[position]? = some (some symbol) → symbol ∉ g.nonterminals →
    ∀ parent ∈ itemsAt later position (position + 1), ∀ moved,
      parent.advance? (g.leaf symbol) = some moved → moved ∈ found
  predict : ∀ item ∈ found, ∀ next pending, item.pending = next :: pending →
    ∀ rhs, ⟨next, rhs⟩ ∈ g.productions → Item.predict next rhs position ∈ found
  completeHere : ∀ child ∈ found, child.pending = [] → child.lhs ≠ g.root →
    child.finish = position → ∀ tree, child.complete = .ok tree →
      ∀ parent ∈ found, ∀ moved, parent.advance? tree = some moved → moved ∈ found
  completeLater : ∀ child ∈ found, child.pending = [] → child.lhs ≠ g.root →
    position < child.finish → ∀ tree, child.complete = .ok tree →
      ∀ parent ∈ itemsAt later position child.finish, ∀ moved,
        parent.advance? tree = some moved → moved ∈ found

/-- An item of a closed position has been moved over every tree that was completed where it stands. -/
lemma Closed.moved_in {items : List Item} (h : Closed g later position items)
    {child parent moved : Item} {tree : Tree} (hchild : child ∈ items)
    (hcompletes : Completes g child tree)
    (hparent : parent ∈ standing later position items child.finish)
    (hmoved : parent.advance? tree = some moved) : moved.In items := by
  obtain ⟨known, hknown, hcompleted⟩ :=
    h.completed child hchild hcompletes.pending hcompletes.lhs
  obtain rfl : known = tree := Except.ok.inj (hknown.symm.trans hcompletes.tree)
  exact hcompleted parent hparent moved hmoved

section Least

variable (hle : position ≤ tokens.length) (hrest : Charts g limit start tokens (position + 1) later)
include hle hrest

/-- What follows from the seeds is the least closed set. -/
lemma isLeast_follows :
    IsLeast {found | ClosedUnder g start tokens later position found} {item | Follows g later
      position (g.seeds start position (tokens.drop position) later) item} := by
  constructor
  · constructor
    · intro hend
      exact .seed ((mem_seeds hle).2 (.inl ⟨hend, rfl⟩))
    · intro symbol htoken hterminal parent hparent moved hmoved
      exact .seed ((mem_seeds hle).2 (.inr ⟨symbol, htoken, hterminal, parent, hparent, hmoved⟩))
    · intro item hitem next pending hpending rhs hrhs
      exact hitem.predict hpending (Grammar.mem_alternatives.2 hrhs)
    · intro child hchild hpending hlhs hfinish tree htree parent hparent moved hmoved
      exact hchild.completeHere ⟨hpending, hlhs, htree⟩ hfinish hparent hmoved
    · intro child hchild hpending hlhs hfinish tree htree parent hparent moved hmoved
      exact hchild.completeLater ⟨hpending, hlhs, htree⟩ (Nat.ne_of_gt hfinish) hparent hmoved
  · intro found hfound item hitem
    induction hitem with
    | seed mem =>
      rcases (mem_seeds hle).1 mem with ⟨hend, rfl⟩ |
        ⟨symbol, htoken, hterminal, parent, hparent, hmoved⟩
      · exact hfound.root hend
      · exact hfound.scan symbol htoken hterminal parent hparent _ hmoved
    | predict _ hpending hrhs ih =>
      exact hfound.predict _ ih _ _ hpending _ (Grammar.mem_alternatives.1 hrhs)
    | completeHere _ hcompletes hfinish _ hmoved hchild hparent =>
      exact hfound.completeHere _ hchild hcompletes.pending hcompletes.lhs hfinish _
        hcompletes.tree _ hparent _ hmoved
    | completeLater hfollows hcompletes hfinish mem hmoved hchild =>
      have hlt := Nat.lt_of_le_of_ne (fits_of_follows hle hrest hfollows).position_le hfinish.symm
      exact hfound.completeLater _ hchild hcompletes.pending hcompletes.lhs hlt _
        hcompletes.tree _ mem _ hmoved

/-- A run to the end finds what follows from the seeds, whatever is drawn first. -/
lemma Drains.mem_iff_follows {queue : List Item}
    (hqueue : queue.Perm (g.seeds start position (tokens.drop position) later))
    (h : Drains g later position [] [] queue result) :
    item ∈ result ↔
      Follows g later position (g.seeds start position (tokens.drop position) later) item := by
  have hfollows := h.follows ((Tracked.start g later position _).perm hqueue.symm)
  obtain ⟨hkeeps, hclosed⟩ := h.closed (Settled.start _)
  -- equal items are the same, since both have their trees from the grammar
  have hmem : ∀ other, Follows g later position
      (g.seeds start position (tokens.drop position) later) other → other.In result →
        other ∈ result := by
    intro other hother hin
    obtain ⟨known, hknown, hdotted⟩ := Item.in_iff.1 hin
    rwa [← (fits_of_follows hle hrest (hfollows known hknown)).eq_of_dotted_eq
      (fits_of_follows hle hrest hother) hdotted]
  refine ⟨hfollows item, fun hitem => ?_⟩
  induction hitem with
  | seed mem => exact hmem _ (.seed mem) (hkeeps _ (hqueue.mem_iff.2 mem))
  | predict follows hpending hrhs ih =>
    exact hmem _ (follows.predict hpending hrhs) (hclosed.predicted _ ih _ _ hpending _ hrhs)
  | @completeHere child parent _ _ follows hcompletes hfinish hfollows hmoved hchild hparent =>
    have hstanding : parent ∈ standing later position result child.finish := by
      rwa [hfinish, standing_self]
    exact hmem _ (follows.completeHere hcompletes hfinish hfollows hmoved)
      (hclosed.moved_in hchild hcompletes hstanding hmoved)
  | @completeLater child parent _ _ follows hcompletes hfinish mem hmoved hchild =>
    have hstanding : parent ∈ standing later position result child.finish := by
      rwa [standing_of_ne result hfinish]
    exact hmem _ (follows.completeLater hcompletes hfinish mem hmoved)
      (hclosed.moved_in hchild hcompletes hstanding hmoved)

end Least

/-- A position that is not cut was drained in the order of its queue. -/
lemma drains_of_build {seeds : List Item}
    (h : (build g limit later position seeds).outcome = .ok here) (huncut : here.cut = false) :
    Drains g later position [] [] seeds here.items := by
  obtain ⟨items, hitems, hclose⟩ := close_of_build h
  rw [huncut] at hclose
  rw [hitems]
  simpa using drains_of_close hclose

/-- A position that is not cut has the least set of items that contains the seeds and is closed
under prediction and completion, and all its finished items have a tree. Runs to the end find the
same items, whatever they draw first. A position that cannot be built has an item in that set whose
tree cannot be built. -/
theorem build_isLeast (hle : position ≤ tokens.length)
    (hrest : Charts g limit start tokens (position + 1) later) :
    (∀ here, (build g limit later position
        (g.seeds start position (tokens.drop position) later)).outcome = .ok here →
      here.cut = false →
      IsLeast {found | ClosedUnder g start tokens later position found}
        {item | item ∈ here.items} ∧
      ∀ child ∈ here.items, child.pending = [] → child.lhs ≠ g.root →
        ∃ tree, child.complete = .ok tree) ∧
    (∀ (other : ℕ) (queue : List Item) (there : Position),
      queue.Perm (g.seeds start position (tokens.drop position) later) →
      (build g other later position queue).outcome = .ok there → there.cut = false →
      Drains g later position [] [] queue there.items) ∧
    (∀ queue queue' result result' : List Item,
      queue.Perm (g.seeds start position (tokens.drop position) later) →
      queue'.Perm (g.seeds start position (tokens.drop position) later) →
      Drains g later position [] [] queue result → Drains g later position [] [] queue' result' →
      ∀ item, item ∈ result ↔ item ∈ result') ∧
    ∀ fault, (build g limit later position
        (g.seeds start position (tokens.drop position) later)).outcome = .error fault →
      ∃ child, (∀ found, ClosedUnder g start tokens later position found → child ∈ found) ∧
        child.pending = [] ∧ child.lhs ≠ g.root ∧ child.complete = .error fault := by
  have hleast := isLeast_follows hle hrest
  refine ⟨?_, fun other queue there _ h huncut => drains_of_build h huncut, ?_, ?_⟩
  · intro here h huncut
    have hrun := drains_of_build h huncut
    constructor
    · simpa only [hrun.mem_iff_follows hle hrest (.refl _)] using hleast
    · intro child hchild hpending hlhs
      obtain ⟨tree, htree, -⟩ := (closed_of_build h huncut).2.completed child hchild hpending hlhs
      exact ⟨tree, htree⟩
  · intro queue queue' result result' hqueue hqueue' hrun hrun' item
    rw [hrun.mem_iff_follows hle hrest hqueue, hrun'.mem_iff_follows hle hrest hqueue']
  · intro fault h
    obtain ⟨child, hfollows, hfaults⟩ := exists_faults_of_build h
    exact ⟨child, fun found hfound => hleast.2 hfound hfollows, hfaults.pending, hfaults.lhs,
      hfaults.tree⟩

/-- Words that start with one or two empty ones: `S → A A a | A a` and `A → `. -/
def emptyFirst : Grammar := (({} : Grammar).addAlternatives "S" "AAa|Aa").addAlternatives "A" ""

/-- In front of `a`, the item `S → A . A a` is found after the empty word below `A` was completed,
and `S → A . a` before. From the seeds in the other order the items are found in another order. -/
theorem build_isLeast_emptyFirst :
    ∃ later here there, Charts emptyFirst 8 ⟨0⟩ [some ⟨2⟩] 1 later ∧
      (build emptyFirst 8 later 0 (emptyFirst.seeds ⟨0⟩ 0 [some ⟨2⟩] later)).outcome = .ok here ∧
      here.cut = false ∧
      (build emptyFirst 7 later 0 (emptyFirst.seeds ⟨0⟩ 0 [some ⟨2⟩] later).reverse).outcome =
        .ok there ∧
      there.cut = false ∧
      here.items.map (fun item => item.parsed.length) = [1, 1, 0, 2, 2, 3, 1, 1] ∧
      there.items.map (fun item => item.parsed.length) = [1, 1, 0, 2, 2, 1, 3, 1] ∧
      IsLeast {found | ClosedUnder emptyFirst ⟨0⟩ [some ⟨2⟩] later 0 found}
        {item | item ∈ here.items} ∧
      ∀ item, item ∈ there.items ↔ item ∈ here.items := by
  have hruns : (emptyFirst.chart 8 ⟨0⟩ [some ⟨2⟩]).outcome >>= (fun chart =>
      (build emptyFirst 7 chart.tail 0
        (emptyFirst.seeds ⟨0⟩ 0 [some ⟨2⟩] chart.tail).reverse).outcome.map fun there =>
          (chart.head?.map fun here => (here.cut, here.items.map fun item => item.parsed.length),
            there.cut, there.items.map fun item => item.parsed.length)) =
      .ok (some (false, [1, 1, 0, 2, 2, 3, 1, 1]), false, [1, 1, 0, 2, 2, 1, 3, 1]) := by cbv
  obtain ⟨chart, hchart, hother⟩ := bind_eq_ok_iff.1 hruns
  obtain ⟨there, hthere, hviews⟩ := map_eq_ok_iff.1 hother
  obtain ⟨hview, hview'⟩ := Prod.mk.inj hviews
  obtain ⟨huncut', hlengths'⟩ := Prod.mk.inj hview'
  cases Grammar.charts_of_chart hchart with
  | @cons _ here later hle rest built =>
    obtain ⟨huncut, hlengths⟩ := Prod.mk.inj (Option.some.inj hview)
    obtain ⟨hleast, hdrains, hsame, -⟩ := build_isLeast hle rest
    refine ⟨later, here, there, rest, built, huncut, hthere, huncut', hlengths, hlengths',
      (hleast here built huncut).1, hsame _ _ _ _ (List.reverse_perm _) (.refl _) ?_ ?_⟩
    · exact hdrains 7 _ there (List.reverse_perm _) hthere huncut'
    · exact hdrains 8 _ here (.refl _) built huncut

end Position

end ContextFree
