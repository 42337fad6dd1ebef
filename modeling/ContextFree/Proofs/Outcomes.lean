import ContextFree.Fault
import Mathlib.Data.List.Forall2
import Mathlib.Tactic.Lemma

/-!
# Outcomes of sequences

A sequence of computations has a result exactly when each of them has one. These statements
take a result of a sequence apart into the results of its steps.
-/
namespace ContextFree

variable {ε α β : Type}

lemma ok_bind (a : α) (next : α → Except ε β) : .ok a >>= next = next a := rfl

theorem bind_eq_ok_iff {x : Except ε α} {next : α → Except ε β} {b : β} :
    x >>= next = .ok b ↔ ∃ a, x = .ok a ∧ next a = .ok b := by
  cases x with
  | error fault =>
    constructor
    · intro h
      cases h
    · rintro ⟨_, h, _⟩
      cases h
  | ok a =>
    constructor
    · intro h
      exact ⟨a, rfl, h⟩
    · rintro ⟨value, hvalue, h⟩
      rwa [← Except.ok.inj hvalue] at h

theorem bind_eq_error_iff {x : Except ε α} {next : α → Except ε β} {fault : ε} :
    x >>= next = .error fault ↔
      x = .error fault ∨ ∃ a, x = .ok a ∧ next a = .error fault := by
  cases x with
  | error first =>
    have hbind : (Except.error first : Except ε α) >>= next = .error first := rfl
    simp [hbind]
  | ok a =>
    have hbind : (Except.ok a : Except ε α) >>= next = next a := rfl
    simp [hbind]

theorem map_eq_ok_iff {f : α → β} {x : Except ε α} {b : β} :
    x.map f = .ok b ↔ ∃ a, x = .ok a ∧ f a = b := by
  cases x with
  | error fault =>
    constructor
    · intro h
      cases h
    · rintro ⟨_, h, _⟩
      cases h
  | ok a => simp [Except.map]

theorem map_eq_error_iff {f : α → β} {x : Except ε α} {fault : ε} :
    x.map f = .error fault ↔ x = .error fault := by
  cases x with
  | error first => simp [Except.map]
  | ok a => simp [Except.map]

/-- Computations that go on alike from the result of the first step are alike. -/
lemma Logged.bind_congr {x : Logged ε α} {a : α} (h : x.outcome = .ok a)
    {next other : α → Logged ε β} (hnext : next a = other a) : x >>= next = x >>= other := by
  rw [bind_of_ok h, bind_of_ok h, hnext]

/-- Outcomes that are the same fault, or results in a relation. -/
inductive Alike (R : α → β → Prop) : Except ε α → Except ε β → Prop
  | error (fault : ε) : Alike R (.error fault) (.error fault)
  | ok {a : α} {b : β} (related : R a b) : Alike R (.ok a) (.ok b)

namespace Alike

variable {γ δ : Type} {R : α → β → Prop} {x : Except ε α} {y : Except ε β}

/-- What goes on alike from related results is alike. -/
lemma bind {S : γ → δ → Prop} {next : α → Except ε γ} {other : β → Except ε δ} (h : Alike R x y)
    (hnext : ∀ a b, R a b → Alike S (next a) (other b)) : Alike S (x >>= next) (y >>= other) := by
  cases h with
  | error fault => exact .error fault
  | ok hrelated => exact hnext _ _ hrelated

lemma map {S : γ → δ → Prop} {f : α → γ} {f' : β → δ} (h : Alike R x y)
    (hf : ∀ a b, R a b → S (f a) (f' b)) : Alike S (x.map f) (y.map f') := by
  cases h with
  | error fault => exact .error fault
  | ok hrelated => exact .ok (hf _ _ hrelated)

lemma map_eq {f : α → γ} {f' : β → γ} (h : Alike R x y) (hf : ∀ a b, R a b → f' b = f a) :
    y.map f' = x.map f := by
  cases h with
  | error fault => rfl
  | ok hrelated => exact congrArg Except.ok (hf _ _ hrelated)

lemma eq_error_of_right {fault : ε} (h : Alike R x (.error fault)) : x = .error fault := by
  cases h with
  | error => rfl

lemma exists_of_ok_right {b : β} (h : Alike R x (.ok b)) : ∃ a, x = .ok a ∧ R a b := by
  cases h with
  | ok hrelated => exact ⟨_, rfl, hrelated⟩

end Alike

theorem mapM_eq_ok_iff {f : α → Except ε β} {as : List α} {bs : List β} :
    as.mapM f = .ok bs ↔ List.Forall₂ (fun a b => f a = .ok b) as bs := by
  induction as generalizing bs with
  | nil =>
    rw [List.mapM_nil, List.forall₂_nil_left_iff]
    exact ⟨fun h => (Except.ok.inj h).symm, fun h => h ▸ rfl⟩
  | cons a as ih =>
    simp only [List.mapM_cons, bind_eq_ok_iff, List.forall₂_cons_left_iff]
    constructor
    · rintro ⟨b, hb, bs', hbs', h⟩
      exact ⟨b, bs', hb, ih.1 hbs', (Except.ok.inj h).symm⟩
    · rintro ⟨b, bs', hb, hbs', rfl⟩
      exact ⟨b, hb, bs', ih.2 hbs', rfl⟩

lemma exists_left_of_forall₂ {R : α → β → Prop} {as : List α} {bs : List β}
    (h : List.Forall₂ R as bs) : ∀ b ∈ bs, ∃ a ∈ as, R a b := by
  induction h with
  | nil => simp
  | @cons a b as bs hab _ ih =>
    refine List.forall_mem_cons.2 ⟨⟨a, List.mem_cons_self, hab⟩, fun other hother => ?_⟩
    obtain ⟨source, hsource, hR⟩ := ih other hother
    exact ⟨source, List.mem_cons_of_mem a hsource, hR⟩

lemma exists_of_mem_mapM {f : α → Except ε β} {as : List α} {bs : List β}
    (h : as.mapM f = .ok bs) : ∀ b ∈ bs, ∃ a ∈ as, f a = .ok b :=
  exists_left_of_forall₂ (mapM_eq_ok_iff.1 h)

lemma exists_mem_of_mapM {f : α → Except ε β} {as : List α} {bs : List β}
    (h : as.mapM f = .ok bs) : ∀ a ∈ as, ∃ b ∈ bs, f a = .ok b :=
  exists_left_of_forall₂ (mapM_eq_ok_iff.1 h).flip

lemma exists_mapM {f : α → Except ε β} {as : List α} (h : ∀ a ∈ as, ∃ b, f a = .ok b) :
    ∃ bs, as.mapM f = .ok bs := by
  induction as with
  | nil => exact ⟨[], rfl⟩
  | cons a as ih =>
    obtain ⟨⟨b, hb⟩, hrest⟩ := List.forall_mem_cons.1 h
    obtain ⟨bs, hbs⟩ := ih hrest
    exact ⟨b :: bs, mapM_eq_ok_iff.2 (.cons hb (mapM_eq_ok_iff.1 hbs))⟩

lemma exists_of_mapM_eq_error {f : α → Except ε β} {as : List α} {fault : ε}
    (h : as.mapM f = .error fault) : ∃ a ∈ as, f a = .error fault := by
  induction as with
  | nil => cases h
  | cons a as ih =>
    rw [List.mapM_cons, bind_eq_error_iff] at h
    rcases h with hfault | ⟨b, _, hrest⟩
    · exact ⟨a, List.mem_cons_self, hfault⟩
    · rcases bind_eq_error_iff.1 hrest with hfault | ⟨_, _, hpure⟩
      · obtain ⟨other, hother, hfault⟩ := ih hfault
        exact ⟨other, List.mem_cons_of_mem a hother, hfault⟩
      · cases hpure

/-- When a result is kept exactly if what it is made of is kept, it does not matter whether
the rest is left out before the sequence is run or after it. -/
lemma mapM_filter {f : α → Except ε β} {p : α → Bool} {q : β → Bool} {as : List α} {bs : List β}
    (hpq : ∀ a b, f a = .ok b → p a = q b) (h : as.mapM f = .ok bs) :
    (as.filter p).mapM f = .ok (bs.filter q) := by
  rw [mapM_eq_ok_iff] at h ⊢
  induction h with
  | nil => exact .nil
  | @cons a b as bs hab _ ih =>
    rw [List.filter_cons, List.filter_cons, hpq a b hab]
    split
    · exact .cons hab ih
    · exact ih

/-- A loop that fails has a turn that fails. -/
lemma exists_of_foldlM_eq_error {f : β → α → Except ε β} {as : List α} {b : β} {fault : ε}
    (h : as.foldlM f b = .error fault) : ∃ before, ∃ a ∈ as, f before a = .error fault := by
  induction as generalizing b with
  | nil => cases h
  | cons a as ih =>
    rw [List.foldlM_cons, bind_eq_error_iff] at h
    rcases h with hfault | ⟨next, _, hrest⟩
    · exact ⟨b, a, List.mem_cons_self, hfault⟩
    · obtain ⟨before, other, hother, hfault⟩ := ih hrest
      exact ⟨before, other, List.mem_cons_of_mem a hother, hfault⟩

/-- A loop over the numbers below a bound, the largest one first, has its first turn below. -/
lemma foldlM_reverse_range_succ (f : β → ℕ → Except ε β) (b : β) (n : ℕ) :
    (List.range (n + 1)).reverse.foldlM f b = f b n >>= (List.range n).reverse.foldlM f := by
  rw [List.range_succ, List.reverse_append, List.reverse_singleton, List.singleton_append,
    List.foldlM_cons]

/-- What every turn preserves holds at the end of a loop. -/
lemma foldlM_preserves {motive : β → Prop} {f : β → α → Except ε β} {as : List α} {b last : β}
    (hturn : ∀ b a next, motive b → f b a = .ok next → motive next) (hb : motive b)
    (h : as.foldlM f b = .ok last) : motive last := by
  induction as generalizing b with
  | nil =>
    obtain rfl := Except.ok.inj h
    exact hb
  | cons a as ih =>
    rw [List.foldlM_cons, bind_eq_ok_iff] at h
    obtain ⟨next, hnext, hrest⟩ := h
    exact ih (hturn b a next hb hnext) hrest

/-- What a view of the state needs is all that has to be carried through a loop. -/
lemma map_foldlM {γ δ : Type} {f : β → α → Except ε β} {f' : γ → δ → Except ε γ} {view : β → γ}
    {job : α → δ} (hstep : ∀ b a, (f b a).map view = f' (view b) (job a)) (as : List α) (b : β) :
    (as.foldlM f b).map view = (as.map job).foldlM f' (view b) := by
  induction as generalizing b with
  | nil => rfl
  | cons a as ih =>
    rw [List.foldlM_cons, List.map_cons, List.foldlM_cons, ← hstep]
    cases f b a with
    | error fault => rfl
    | ok next => exact ih next

/-- A loop whose turns succeed with the same results under other conditions succeeds with the same
result. -/
lemma foldlM_eq_ok_of_turns {f f' : β → α → Except ε β} {as : List α} {b last : β}
    (hturn : ∀ b a next, f b a = .ok next → f' b a = .ok next) (h : as.foldlM f b = .ok last) :
    as.foldlM f' b = .ok last := by
  induction as generalizing b with
  | nil => exact h
  | cons a as ih =>
    rw [List.foldlM_cons, bind_eq_ok_iff] at h ⊢
    obtain ⟨next, hnext, hrest⟩ := h
    exact ⟨next, hturn b a next hnext, ih hrest⟩

/-- A loop in a loop is a loop over all rows, one after another. -/
lemma foldlM_flatMap {γ : Type} {f : β → γ → Except ε β} {rows : α → List γ} {as : List α}
    {b : β} :
    (as.flatMap rows).foldlM f b = as.foldlM (fun b a => (rows a).foldlM f b) b := by
  induction as generalizing b with
  | nil => rfl
  | cons a as ih =>
    rw [List.flatMap_cons, List.foldlM_append, List.foldlM_cons]
    congr 1
    funext next
    exact ih

end ContextFree
