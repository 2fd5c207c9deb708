/-!
# Lazy lists

A list whose tail is computed only when it is asked for.  The view `toList`
forgets the laziness: every operation here does to the view what the list
operation of the same name does.
-/

namespace Equational

/-- A finite list with a suspended tail. -/
inductive LazyList (α : Type) where
  | nil
  | cons (head : α) (tail : Unit → LazyList α)

namespace LazyList

variable {α β : Type}

def toList : LazyList α → List α
  | nil => []
  | cons head tail => head :: (tail ()).toList

def ofList : List α → LazyList α
  | [] => nil
  | a :: rest => cons a fun _ => ofList rest

def map (f : α → β) : LazyList α → LazyList β
  | nil => nil
  | cons head tail => cons (f head) fun _ => (tail ()).map f

/-- The second list is computed when the first has come to its end. -/
def append : LazyList α → (Unit → LazyList α) → LazyList α
  | nil, second => second ()
  | cons head tail, second => cons head fun _ => (tail ()).append second

def flatMap (f : α → LazyList β) : LazyList α → LazyList β
  | nil => nil
  | cons head tail => (f head).append fun _ => (tail ()).flatMap f

/-! ## The view -/

@[simp] theorem toList_nil : (nil : LazyList α).toList = [] := rfl

@[simp] theorem toList_cons (head : α) (tail : Unit → LazyList α) :
    (cons head tail).toList = head :: (tail ()).toList := rfl

@[simp] theorem toList_ofList (list : List α) : (ofList list).toList = list := by
  induction list with
  | nil => rfl
  | cons a rest ih =>
      simp [ofList, ih]

@[simp] theorem toList_map (f : α → β) (list : LazyList α) :
    (list.map f).toList = list.toList.map f := by
  induction list with
  | nil => rfl
  | cons head tail ih =>
      simp [map, ih]

@[simp] theorem toList_append (list : LazyList α) (second : Unit → LazyList α) :
    (list.append second).toList = list.toList ++ (second ()).toList := by
  induction list with
  | nil => rfl
  | cons head tail ih =>
      simp [append, ih]

@[simp] theorem toList_flatMap (f : α → LazyList β) (list : LazyList α) :
    (list.flatMap f).toList = list.toList.flatMap fun a => (f a).toList := by
  induction list with
  | nil => rfl
  | cons head tail ih =>
      simp [flatMap, ih]

end LazyList

end Equational
