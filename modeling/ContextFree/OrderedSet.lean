import ContextFree.Shape
import Std.Data.TreeMap

/-!
# Ordered sets

A set that keeps its elements in the order in which they were first inserted, with an index by
digest beside them. Everything is said about the list of elements: `contains` is membership in
it, and `insert` appends an element unless an equal one is there. The index is only a quick way
to find out, and the type keeps it true to the elements.
-/
namespace ContextFree

/-- Elements in order of insertion, no two of them equal, with an index that is true to
them. -/
structure OrderedSet (α : Type) [BEq α] [HasDigest α] where
  elements : Array α := #[]
  distinct : elements.toList.Pairwise fun a b => (a == b) = false := by simp
  /-- The elements of each digest. -/
  index : Std.TreeMap Nat (List α) := {}
  elem_index : ∀ a, (index.getD (HasDigest.digest a) []).elem a = elements.toList.elem a := by simp

namespace OrderedSet

variable {α β : Type} [BEq α] [HasDigest α]

def empty : OrderedSet α := {}

instance : Inhabited (OrderedSet α) where
  default := empty

def toList (s : OrderedSet α) : List α := s.elements.toList

def size (s : OrderedSet α) : Nat := s.elements.size

/-- Whether an element equal to `a` is in the set. -/
def contains (s : OrderedSet α) (a : α) : Bool := (s.index.getD (HasDigest.digest a) []).elem a

/-- What a partial function makes of the elements, in order. -/
def filterMap (s : OrderedSet α) (f : α → Option β) : List β := (s.elements.filterMap f).toList

/-- Appends an element unless an equal one is in the set. -/
def insert [EquivBEq α] (s : OrderedSet α) (a : α) : OrderedSet α :=
  let key := HasDigest.digest a
  let bucket := s.index.getD key []
  if hknown : bucket.elem a then s
  else
    { elements := s.elements.push a
      distinct := by
        rw [s.elem_index a, List.elem_eq_contains, List.contains_iff_exists_mem_beq] at hknown
        rw [Array.toList_push, List.pairwise_append]
        refine ⟨s.distinct, by simp, ?_⟩
        intro b hb c hc
        rw [List.mem_singleton.1 hc, Bool.eq_false_iff]
        exact fun hba => hknown ⟨b, hb, BEq.symm hba⟩
      index := s.index.insert key (a :: bucket)
      elem_index := by
        intro b
        have happend : (s.elements.toList ++ [a]).elem b =
            (s.elements.toList.elem b || b == a) := by simp
        rw [Std.TreeMap.getD_insert, Array.toList_push, happend, ← s.elem_index b]
        cases hab : b == a with
        | true => simp [key, HasDigest.digest_congr hab, hab]
        | false =>
          by_cases hkey : HasDigest.digest a = HasDigest.digest b
          · simp [key, bucket, hkey, hab]
          · simp [key, hkey] }

@[simp] theorem toList_empty : (empty : OrderedSet α).toList = [] := rfl

@[simp] theorem size_empty : (empty : OrderedSet α).size = 0 := rfl

@[simp] theorem length_toList (s : OrderedSet α) : s.toList.length = s.size := rfl

theorem contains_eq (s : OrderedSet α) (a : α) : s.contains a = s.toList.elem a :=
  s.elem_index a

theorem contains_iff {s : OrderedSet α} {a : α} :
    s.contains a = true ↔ ∃ b ∈ s.toList, (a == b) = true := by
  rw [contains_eq, List.elem_eq_contains, List.contains_iff_exists_mem_beq]

theorem filterMap_eq (s : OrderedSet α) (f : α → Option β) :
    s.filterMap f = s.toList.filterMap f := by
  simp [filterMap, toList]

variable [EquivBEq α]

theorem toList_insert (s : OrderedSet α) (a : α) :
    (s.insert a).toList = if s.contains a then s.toList else s.toList ++ [a] := by
  unfold insert contains
  dsimp only
  split <;> simp [toList]

theorem insert_of_contains {s : OrderedSet α} {a : α} (h : s.contains a = true) :
    s.insert a = s := dif_pos h

theorem size_insert (s : OrderedSet α) (a : α) :
    (s.insert a).size = if s.contains a then s.size else s.size + 1 := by
  unfold insert contains
  dsimp only
  split <;> simp [size]

end OrderedSet

end ContextFree
