/-!
# Queues

A first-in first-out queue, kept as a front and a reversed back so that elements are added and
drawn in constant time on average. Its view is `toList`, the elements in the order in which
they will be drawn.
-/
namespace ContextFree

/-- Elements waiting to be drawn. -/
structure Queue (α : Type) where
  front : List α := []
  /-- The elements behind the front, the last one first. -/
  back : List α := []

namespace Queue

variable {α : Type}

/-- The elements in the order in which they will be drawn. -/
def toList (q : Queue α) : List α := q.front ++ q.back.reverse

def size (q : Queue α) : Nat := q.front.length + q.back.length

def ofList (elements : List α) : Queue α := ⟨elements, []⟩

/-- Adds elements behind all others. -/
def append (q : Queue α) (elements : List α) : Queue α := ⟨q.front, elements.reverseAux q.back⟩

/-- The first element and the queue without it. -/
def draw? (q : Queue α) : Option (α × Queue α) :=
  match q.front with
  | a :: front => some (a, ⟨front, q.back⟩)
  | [] =>
    match q.back.reverse with
    | a :: front => some (a, ⟨front, []⟩)
    | [] => none

@[simp] theorem toList_ofList (elements : List α) : (ofList elements).toList = elements := by
  simp [ofList, toList]

@[simp] theorem toList_append (q : Queue α) (elements : List α) :
    (q.append elements).toList = q.toList ++ elements := by
  simp [append, toList, List.reverseAux_eq]

theorem draw?_eq_none_iff {q : Queue α} : q.draw? = none ↔ q.toList = [] := by
  cases q with
  | mk front back =>
    cases front with
    | cons a front => simp [draw?, toList]
    | nil => cases h : back.reverse <;> simp [draw?, toList, h]

theorem toList_of_draw? {q rest : Queue α} {a : α} (h : q.draw? = some (a, rest)) :
    q.toList = a :: rest.toList := by
  cases q with
  | mk front back =>
    cases front with
    | cons b front =>
      obtain ⟨rfl, rfl⟩ := Prod.mk.inj (Option.some.inj h)
      rfl
    | nil =>
      cases hback : back.reverse with
      | nil => simp [draw?, hback] at h
      | cons b front =>
        simp only [draw?, hback, Option.some.injEq, Prod.mk.injEq] at h
        obtain ⟨rfl, rfl⟩ := h
        simp [toList, hback]

theorem exists_draw?_of_toList {q : Queue α} {a : α} {rest : List α} (h : q.toList = a :: rest) :
    ∃ q', q.draw? = some (a, q') ∧ q'.toList = rest := by
  cases hdraw : q.draw? with
  | none =>
    rw [draw?_eq_none_iff.1 hdraw] at h
    cases h
  | some drawn =>
    obtain ⟨rfl, hrest⟩ := List.cons.inj ((toList_of_draw? hdraw).symm.trans h)
    exact ⟨drawn.2, rfl, hrest⟩

@[simp] theorem length_toList (q : Queue α) : q.toList.length = q.size := by
  simp [toList, size]

theorem size_of_draw? {q rest : Queue α} {a : α} (h : q.draw? = some (a, rest)) :
    q.size = rest.size + 1 := by
  rw [← length_toList, toList_of_draw? h, List.length_cons, length_toList]

end Queue

end ContextFree
