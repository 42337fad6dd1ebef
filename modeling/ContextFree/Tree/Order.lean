import ContextFree.Grammar.Text
import ContextFree.OrderedSet
import ContextFree.Tree.Basic

/-!
# Comparing and printing trees

Trees are equal when they have the same shape; names and measures play no part. Trees of
different digest differ. Of two trees with one digest the comparison walks both together.
Subtrees that are one and the same object in memory are skipped, which is a hint only:
`withPtrEq` is the test it is given.

In ascending order, trees are told apart by the length of their sentence, then by the sentence
itself, then by height. Length counts characters, and sentences compare character by character.
Sorting keeps trees that compare equal in the order in which they stand.

The bracketed form of a tree writes a leaf as its name and a nonterminal as its name followed
by its children between parentheses, separated by spaces: `S(a S() b)`. The inspection text
shows the structure by symbol. Both are texts of the shape: the names come from a grammar, not
from the leaves.
-/
namespace ContextFree

namespace Tree

namespace Node

/-- Answers at once when both nodes are one object or their digests differ, and asks `test`
otherwise. It is kept as one call, so that what is tested last is not computed first. -/
@[noinline] def decideShared {a b : Node} (ha : a.Sound) (hb : b.Sound)
    (test : Unit → Decidable (a.shape = b.shape)) : Decidable (a.shape = b.shape) :=
  if h : withPtrEq a b (fun _ => a.digest == b.digest && @decide _ (test ()))
      (by rintro rfl; simp) then
    isTrue (by
      simp only [withPtrEq, Bool.and_eq_true] at h
      exact @of_decide_eq_true _ (test ()) h.2)
  else
    isFalse fun e => h (by
      simp only [withPtrEq, Bool.and_eq_true, beq_iff_eq]
      exact ⟨by rw [ha.digest_eq, hb.digest_eq, e], @decide_eq_true _ (test ()) e⟩)

mutual

/-- Compares two nodes by shape. -/
def decideSame : (a b : Node) → a.Sound → b.Sound → Decidable (a.shape = b.shape)
  | terminal s _, terminal t _, _, _ => decidable_of_iff (s = t) (by simp)
  | terminal .., nonterminal .., _, _ => isFalse (by simp)
  | nonterminal .., terminal .., _, _ => isFalse (by simp)
  | nonterminal s as _ _, nonterminal t bs _ _, ha, hb =>
    if h : s = t then
      match decideSameRow as bs (fun _ mem => ha.of_mem mem) (fun _ mem => hb.of_mem mem) with
      | isTrue e => isTrue (by simp [h, e])
      | isFalse e => isFalse (by simp [e])
    else
      isFalse (by simp [h])

def decideSameRow : (as bs : List Node) → (∀ a ∈ as, a.Sound) → (∀ b ∈ bs, b.Sound) →
    Decidable (as.map shape = bs.map shape)
  | [], [], _, _ => isTrue rfl
  | [], _ :: _, _, _ => isFalse (by simp)
  | _ :: _, [], _, _ => isFalse (by simp)
  | a :: as, b :: bs, has, hbs =>
    have ha := has a List.mem_cons_self
    have hb := hbs b List.mem_cons_self
    match decideShared ha hb fun _ => decideSame a b ha hb with
    | isFalse e => isFalse (by simp [e])
    | isTrue e =>
      match decideSameRow as bs (fun _ mem => has _ (List.mem_cons_of_mem a mem))
          (fun _ mem => hbs _ (List.mem_cons_of_mem b mem)) with
      | isTrue es => isTrue (by simp [e, es])
      | isFalse es => isFalse (by simp [es])

end

end Node

instance instDecidableSame (a b : Tree) : Decidable (a.shape = b.shape) :=
  Node.decideShared a.sound b.sound fun _ => Node.decideSame a.top b.top a.sound b.sound

instance instDecidableSameRow : (as bs : List Tree) → Decidable (as.map shape = bs.map shape)
  | [], [] => isTrue rfl
  | [], _ :: _ => isFalse (by simp)
  | _ :: _, [] => isFalse (by simp)
  | a :: as, b :: bs =>
    match instDecidableSame a b with
    | isFalse e => isFalse (by simp [e])
    | isTrue e =>
      match instDecidableSameRow as bs with
      | isTrue es => isTrue (by simp [e, es])
      | isFalse es => isFalse (by simp [es])

/-- Trees are equal when they have the same shape. -/
instance : BEq Tree where
  beq a b := decide (a.shape = b.shape)

@[simp] theorem beq_iff {a b : Tree} : (a == b) = true ↔ a.shape = b.shape := by
  simp [BEq.beq]

instance : EquivBEq Tree where
  rfl := beq_iff.2 rfl
  symm h := beq_iff.2 (beq_iff.1 h).symm
  trans h h' := beq_iff.2 ((beq_iff.1 h).trans (beq_iff.1 h'))

instance : HasDigest Tree where
  digest := digest
  digest_congr h := by rw [digest_eq, digest_eq, beq_iff.1 h]

/-- For each tree of a list, whether it is new: equal to none of the trees before it. -/
def newness (trees : List Tree) : List Bool := go .empty trees
where
  /-- Here `seen` holds the trees met so far. -/
  go (seen : OrderedSet Tree) : List Tree → List Bool
    | [] => []
    | tree :: trees => (!seen.contains tree) :: go (seen.insert tree) trees

def compareAscending (a b : Tree) : Ordering :=
  (compare a.sentence.length b.sentence.length).then
    ((compare a.sentence b.sentence).then (compare a.height b.height))

def sortAscending (trees : List Tree) : List Tree :=
  trees.mergeSort fun a b => (compareAscending a b).isLE

theorem compareAscending_eq_eq_iff {a b : Tree} :
    compareAscending a b = .eq ↔ a.sentence = b.sentence ∧ a.height = b.height := by
  simp only [compareAscending, Ordering.then_eq_eq, Std.compare_eq_iff_eq]
  constructor
  · exact fun h => h.2
  · exact fun h => ⟨by rw [h.1], h⟩

end Tree

namespace Shape

mutual

/-- The bracketed form, with the names of a grammar. -/
def display (g : Grammar) : Shape → String
  | leaf symbol => g.nameOr Grammar.unnamed symbol
  | node symbol children =>
    g.nameOr Grammar.unnamed symbol ++ "(" ++ " ".intercalate (displays g children) ++ ")"

def displays (g : Grammar) : List Shape → List String
  | [] => []
  | shape :: shapes => shape.display g :: displays g shapes

end

mutual

def inspect : Shape → String
  | leaf symbol => "Terminal(" ++ symbol.inspect ++ ")"
  | node symbol children =>
    "NonTerminal(" ++ symbol.inspect ++ ", " ++ Text.bracketed (inspects children) ++ ")"

def inspects : List Shape → List String
  | [] => []
  | shape :: shapes => shape.inspect :: inspects shapes

end

@[simp] theorem displays_eq_map (g : Grammar) (shapes : List Shape) :
    displays g shapes = shapes.map (display g) := by
  induction shapes with
  | nil => rfl
  | cons shape shapes ih => simp [displays, ih]

@[simp] theorem inspects_eq_map (shapes : List Shape) : inspects shapes = shapes.map inspect := by
  induction shapes with
  | nil => rfl
  | cons shape shapes ih => simp [inspects, ih]

end Shape

namespace Tree

/-- The bracketed form, with the names of a grammar. -/
def display (g : Grammar) (tree : Tree) : String := tree.shape.display g

def inspect (tree : Tree) : String := tree.shape.inspect

end Tree

end ContextFree
