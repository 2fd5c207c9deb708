import Equational.Cbor.Interpretation
import Equational.Proofs.WrittenItems
import Mathlib.Data.List.Forall2

/-!
# Interpreting what was read

Interpreting an item that was cut off at some depth gives the value of the item
if all its containers were opened, and else the error of the container that was
not.  This is what every interpretation keeps that is put together from others:
of records, of choices, of lists and of what need not be there.
-/

namespace Equational
namespace Cbor

/-- An interpretation finds the value of an item that is cut off at a depth, unless the item reaches
deeper. -/
def Reads {α : Type} (interpret : Item → Read α) (depth : Nat) (item : Item) (value : α) : Prop :=
  interpret (item.clip depth) = if item.nesting ≤ depth then .ok value else .error .syntaxError

namespace Reads

variable {α β : Type} {interpret : Item → Read α} {depth : Nat} {item : Item} {value : α}

theorem of_leaf (hleaf : item.nesting = 0) (h : interpret item = .ok value) :
    Reads interpret depth item value := by
  rw [Reads, Item.clip_of_leaf hleaf, hleaf, if_pos (Nat.zero_le _), h]

theorem bind (value : α) (h : Reads interpret depth item value) {next : α → Read β} {result : β}
    (hnext : next value = .ok result) :
    Reads (fun item => interpret item >>= next) depth item result := by
  unfold Reads at *
  simp only [h]
  split
  · exact hnext
  · rfl

theorem map (h : Reads interpret depth item value) (f : α → β) :
    Reads (fun item => (interpret item).map f) depth item (f value) := by
  unfold Reads at *
  simp only [h]
  split <;> rfl

theorem asOption (h : Reads interpret depth item value) (hnull : item ≠ .null) :
    Reads (Item.asOption interpret) depth item (some value) := by
  have hclip : item.clip depth ≠ .null := by
    cases item with
    | array items isCut => cases depth <;> exact fun h => by cases h
    | map single items isCut => cases depth <;> exact fun h => by cases h
    | _ => rwa [Item.clip_of_leaf rfl]
  have hsome : ∀ item : Item, item ≠ .null →
      item.asOption interpret = (interpret item).map some := by
    intro item hitem
    cases item with
    | null => exact absurd rfl hitem
    | _ => rfl
  rw [Reads, hsome _ hclip]
  exact h.map some

end Reads

/-!
## Lists
-/

section

variable {α : Type} {interpret : Item → Read α} {depth : Nat}

theorem mapItems_listClip {items : List Item} {values : List α}
    (h : List.Forall₂ (Reads interpret depth) items values) :
    Item.mapItems interpret (Item.listClip depth items) =
      if Item.listNesting items ≤ depth then .ok values else .error .syntaxError := by
  induction h with
  | nil => rfl
  | @cons item value items values hitem _ ih =>
      rw [Item.listClip, Item.mapItems, hitem, Item.listNesting]
      by_cases hnesting : item.nesting ≤ depth
      · simp only [Nat.max_le, hnesting, true_and, if_true]
        change (do
          let values ← Item.mapItems interpret (Item.listClip depth items)
          pure (value :: values)) = _
        rw [ih]
        split <;> rfl
      · simp only [Nat.max_le, hnesting, false_and, if_false]
        rfl

theorem Reads.asList {items : List Item} {values : List α}
    (h : ∀ d, depth = d + 1 → List.Forall₂ (Reads interpret d) items values) :
    Reads (Item.asList interpret) depth (.list items) values := by
  cases depth with
  | zero => rfl
  | succ depth =>
      have hitems := mapItems_listClip (h depth rfl)
      unfold Reads Item.asList Item.list
      rw [Item.clip, Item.nesting]
      simp only [Item.untagged, hitems, Nat.add_le_add_iff_right]
      split <;> rfl

end

/-!
## Records

A record is found when its fields are.
-/

section

variable {α : Type} {names : List String} {step : α → Nat → Item → Read α} {depth : Nat}

/-- The fields of a record that are taken in one after another, each of them found at the given
depth. -/
inductive Fills (names : List String) (step : α → Nat → Item → Read α) (depth : Nat) :
    List Nat → α → List (String × Item) → α → Prop
  | nil {seen : List Nat} {record : α} : Fills names step depth seen record [] record
  | cons {seen : List Nat} {record next result : α} {name : String} {item : Item}
      {fields : List (String × Item)} (field : Nat)
      (hname : Item.Key.find? (.name (utf8 name)) names = some field)
      (hnew : seen.contains field = false)
      (hitem : Reads (step record field) depth item next)
      (hrest : Fills names step depth (field :: seen) next fields result) :
      Fills names step depth seen record ((name, item) :: fields) result

namespace Fills

variable {seen : List Nat} {record result : α} {fields : List (String × Item)}

theorem foldEntries (h : Fills names step depth seen record fields result) :
    Item.foldEntries names step seen record
        (Item.listClip depth (fields.flatMap fun field => [.text field.1, field.2])) =
      if Item.listNesting (fields.flatMap fun field => [.text field.1, field.2]) ≤ depth then
        .ok result
      else .error .syntaxError := by
  induction h with
  | nil => rfl
  | @cons seen record next result name item fields field hname hnew hitem _ ih =>
      have hkey : (Item.asKey (.text name)).map (Item.Key.find? · names) = .ok (some field) := by
        rw [← hname]
        rfl
      rw [List.flatMap_cons, List.cons_append, List.cons_append, List.nil_append,
        Item.listClip_of_leaf rfl, Item.listClip, Item.foldEntries, hkey]
      simp only [bind, Except.bind, hnew, Bool.false_eq_true, if_false, Item.listNesting,
        Item.nesting, Nat.zero_max]
      unfold Reads at hitem
      rw [hitem]
      by_cases hnesting : item.nesting ≤ depth
      · simp only [Nat.max_le, hnesting, true_and, if_true]
        exact ih
      · simp only [Nat.max_le, hnesting, false_and, if_false]

theorem reads {start : α} (h : ∀ d, depth = d + 1 → Fills names step d [] start fields result) :
    Reads (Item.asRecord names step start) depth (.record fields) result := by
  cases depth with
  | zero => rfl
  | succ depth =>
      have hentries := (h depth rfl).foldEntries
      unfold Reads Item.asRecord Item.record
      rw [Item.clip, Item.nesting]
      simp only [Item.untagged, hentries, Nat.add_le_add_iff_right]
      split <;> rfl

end Fills

end

/-!
## Choices

A choice is found when its content is.
-/

section

variable {α : Type} {names : List String} {name : String} (choice : Nat)
  {next : Nat × Item.Content → Read α}

theorem asChoice_text (hname : Item.Key.find? (.name (utf8 name)) names = some choice) :
    Item.asChoice names (.text name) = .ok (choice, .nothing) := by
  change (do
    let choice ← Item.required (Item.Key.find? (.name (utf8 name)) names)
    pure (choice, Item.Content.nothing)) = _
  rw [hname]
  rfl

theorem reads_text {depth : Nat} (hname : Item.Key.find? (.name (utf8 name)) names = some choice)
    {value : α} (h : next (choice, .nothing) = .ok value) :
    Reads (fun item => Item.asChoice names item >>= next) depth (.text name) value := by
  apply Reads.of_leaf rfl
  simp only [asChoice_text choice hname]
  exact h

theorem reads_variant {depth : Nat} {content : Item} {value : α}
    (hname : Item.Key.find? (.name (utf8 name)) names = some choice)
    (h : ∀ d, depth = d + 1 → Reads (fun item => next (choice, .value item)) d content value) :
    Reads (fun item => Item.asChoice names item >>= next) depth (.variant name content) value := by
  cases depth with
  | zero => rfl
  | succ depth =>
      have hcontent := h depth rfl
      have hchoice : Item.asChoice names (.map true [.text name, content.clip depth] false) =
          .ok (choice, .value (content.clip depth)) := by
        change (do
          let choice ← Item.required (Item.Key.find? (.name (utf8 name)) names)
          pure (choice, Item.Content.value (content.clip depth))) = _
        rw [hname]
        rfl
      have hclip : (Item.variant name content).clip (depth + 1) =
          .map true [.text name, content.clip depth] false := by
        change Item.map true (Item.listClip depth [.text name, content]) false = _
        rw [Item.listClip_of_leaf rfl, Item.listClip, Item.listClip]
        split <;> rfl
      have hnesting : (Item.variant name content).nesting = content.nesting + 1 := by
        change max 0 (max content.nesting 0) + 1 = _
        rw [Nat.max_zero, Nat.zero_max]
      unfold Reads at *
      simp only [hclip, hchoice, hnesting, Nat.add_le_add_iff_right]
      exact hcontent

end

/-!
## Whole bytes
-/

/-- Bytes that hold an item are decoded to its value, unless it has more containers open at once
than the reader allows. -/
theorem decode_write {α : Type} {interpret : Item → Read α} {item : Item} {value : α}
    (h : item.Sound) (hlength : item.write.length < Number.twoTo 64)
    (hreads : Reads interpret Item.nestingLimit item value) :
    decode interpret item.write =
      if item.nesting ≤ Item.nestingLimit then .ok value else .error .syntaxError := by
  unfold Reads at hreads
  rw [decode, Item.ofBytes_write h hlength, Item.reading]
  simp only [hreads]
  by_cases hnesting : item.nesting ≤ Item.nestingLimit
  · simp only [if_pos hnesting]
  · simp only [if_neg hnesting]

end Cbor
end Equational
