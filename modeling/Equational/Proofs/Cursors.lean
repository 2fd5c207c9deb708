import Mathlib.Data.List.Perm.Basic
import Equational.Enumeration.Cursor

/-!
# What cursors answer

A cursor enumerates a list if it answers the elements one after another and then
nothing any more, however often it is asked, and never with a fault.  Where the
items go upwards in a linear order, a cursor enumerates them if every step leads
to the least item above.
-/

namespace Equational

/-!
## Checked steps
-/

namespace Checked

variable {α : Type}

theorem minus_of_le {m n : Nat} (h : n ≤ m) : minus m n = .ok (m - n) := if_pos h

@[simp] theorem read_append (front : List α) (a : α) (rest : List α) :
    read (front ++ a :: rest) front.length = .ok a := by
  simp [read]

@[simp] theorem write_append (front : List α) (a b : α) (rest : List α) :
    write (front ++ a :: rest) front.length b = .ok (front ++ b :: rest) := by
  simp [write]

theorem slice_of_le {list : List α} {start stop : Nat} (hstart : start ≤ stop)
    (hstop : stop ≤ list.length) :
    slice list start stop = .ok ((list.take stop).drop start) :=
  if_pos ⟨hstart, hstop⟩

theorem swap_append (front : List α) (a : α) (middle : List α) (b : α) (back : List α) :
    swap (front ++ a :: (middle ++ b :: back)) front.length (front.length + 1 + middle.length) =
      .ok (front ++ b :: (middle ++ a :: back)) := by
  have hlength : ∀ c : α, front.length + 1 + middle.length = (front ++ c :: middle).length := by
    intro c
    rw [List.length_append, List.length_cons]
    omega
  have hsplit : ∀ (c : α) (rest : List α),
      front ++ c :: (middle ++ rest) = (front ++ c :: middle) ++ rest := by
    simp
  have hsecond : read (front ++ a :: (middle ++ b :: back)) (front.length + 1 + middle.length) =
      .ok b := by
    rw [hsplit, hlength a, read_append]
  have hlast : write (front ++ b :: (middle ++ b :: back)) (front.length + 1 + middle.length) a =
      .ok (front ++ b :: (middle ++ a :: back)) := by
    rw [hsplit, hlength b, write_append, ← hsplit]
  simp only [swap, read_append, hsecond, write_append, hlast, bind, Except.bind]

theorem reverseFrom_append_cons (front : List α) (a : α) (rest : List α) :
    reverseFrom (front ++ a :: rest) (front.length + 1) = .ok (front ++ a :: rest.reverse) := by
  have hsplit : front ++ a :: rest = (front ++ [a]) ++ rest := by simp
  have hlength : front.length + 1 = (front ++ [a]).length := by simp
  rw [hsplit, hlength, reverseFrom, if_pos (by simp), List.take_left, List.drop_left,
    List.append_assoc, List.singleton_append]

end Checked

/-!
## Enumerations

A cursor that has come to its end stays there.
-/

section

variable {σ α : Type} {next : σ → Except Fault (Option α × σ)} {cursor moved : σ} {item : α}
  {items : List α}

/-- However often it is asked, the cursor answers the elements of the list one after another, and
nothing after the last. -/
def Enumerates (next : σ → Except Fault (Option α × σ)) (cursor : σ) (items : List α) : Prop :=
  ∀ count, answers next count cursor = .ok ((List.range count).map fun i => items[i]?)

theorem answers_succ {answer : Option α} (h : next cursor = .ok (answer, moved)) (count : Nat) :
    answers next (count + 1) cursor = (answers next count moved).map (answer :: ·) := by
  simp only [answers, h, bind, Except.bind]
  cases answers next count moved <;> rfl

theorem Enumerates.cons (h : next cursor = .ok (some item, moved))
    (hrest : Enumerates next moved items) : Enumerates next cursor (item :: items) := by
  intro count
  cases count with
  | zero => rfl
  | succ count =>
      rw [answers_succ h, hrest count, List.range_succ_eq_map, List.map_cons, List.map_map]
      rfl

theorem enumerates_nil_of_eq (h : next cursor = .ok (none, cursor)) :
    Enumerates next cursor [] := by
  intro count
  induction count with
  | zero => rfl
  | succ count ih =>
      rw [answers_succ h, ih, List.range_succ_eq_map, List.map_cons, List.map_map]
      rfl

theorem enumerates_nil (h : next cursor = .ok (none, moved))
    (hend : next moved = .ok (none, moved)) : Enumerates next cursor [] := by
  intro count
  cases count with
  | zero => rfl
  | succ count =>
      rw [answers_succ h, enumerates_nil_of_eq hend count, List.range_succ_eq_map, List.map_cons,
        List.map_map]
      rfl

end

/-!
## The least item above

What lies between two lists with a common front has this front too.  So in an ascending listing
the least list above a listed one is the one listed behind it.
-/

theorem exists_append_of_between (front : List Nat) {list next other : List Nat}
    (hlower : front ++ list < other) (hupper : other < front ++ next) :
    ∃ rest, other = front ++ rest ∧ list < rest ∧ rest < next := by
  induction front generalizing other with
  | nil => exact ⟨other, rfl, hlower, hupper⟩
  | cons a front ih =>
      cases other with
      | nil => exact absurd hlower (List.not_lt_nil _)
      | cons b others =>
          rw [List.cons_append, List.cons_lt_cons_iff] at hlower hupper
          rcases hlower with hlower | ⟨rfl, hlower⟩
          · rcases hupper with hupper | ⟨rfl, -⟩
            · exact absurd hlower (Nat.lt_asymm hupper)
            · exact absurd hlower (Nat.lt_irrefl _)
          · rcases hupper with hupper | ⟨-, hupper⟩
            · exact absurd hupper (Nat.lt_irrefl _)
            · rcases ih hlower hupper with ⟨rest, rfl, hrest⟩
              exact ⟨rest, rfl, hrest⟩

/-- The answer is the least of some lists above a list, in lexicographic order; nothing is answered
if none of them is above. -/
def IsNext (among : List Nat → Prop) (list : List Nat) : Option (List Nat) → Prop
  | none => ∀ other, among other → ¬list < other
  | some next => among next ∧ list < next ∧ ∀ other, among other → list < other → ¬other < next

theorem IsNext.eq_head? {among : List Nat → Prop} {front rest : List (List Nat)} {list : List Nat}
    {answer : Option (List Nat)} (h : IsNext among list answer)
    (hamong : ∀ other, among other ↔ other ∈ front ++ list :: rest)
    (hsorted : (front ++ list :: rest).Pairwise (· < ·)) : answer = rest.head? := by
  rw [List.pairwise_append, List.pairwise_cons] at hsorted
  rcases hsorted with ⟨-, ⟨habove, hrest⟩, hbelow⟩
  have hmem : ∀ other ∈ rest, among other := fun other hother =>
    (hamong other).mpr (List.mem_append_right _ (List.mem_cons_of_mem _ hother))
  cases answer with
  | none =>
      cases rest with
      | nil => rfl
      | cons first rest =>
          exact absurd (habove first List.mem_cons_self) (h first (hmem first List.mem_cons_self))
  | some next =>
      rcases h with ⟨hnext, hless, hleast⟩
      have hnext : next ∈ rest := by
        rcases List.mem_append.mp ((hamong next).mp hnext) with hfront | hlist
        · exact absurd hless (List.lt_asymm (hbelow next hfront list List.mem_cons_self))
        · rcases List.mem_cons.mp hlist with rfl | hrest
          · exact absurd hless (List.lt_irrefl _)
          · exact hrest
      cases rest with
      | nil => cases hnext
      | cons first rest =>
          rcases List.mem_cons.mp hnext with rfl | hlater
          · rfl
          · exact absurd ((List.pairwise_cons.mp hrest).1 next hlater)
              (hleast first (hmem first List.mem_cons_self) (habove first List.mem_cons_self))

end Equational
