import Equational.Proofs.ReadAtoms
import Equational.Proofs.StoredAtoms

/-!
# Restored atoms and binding sets

An atom that was built through the checks is restored from its stored bytes: as
the same term, with the same depth, constancy, type and text.  So is each atom
of a binding set, under its name.  Only where more containers are open at once
in the stored form than the reader allows does the reading stop, and then with
an error.

No other atom is restored, as all that is read is well made.  There is one way
to such an atom: the index of a lambda is one above that of its body, so that it
is zero, and the parameter not a bound variable, if the body has the greatest
index.
-/

namespace Equational

open Atom

/-!
## Binding sets

Entries in ascending order are taken in one after another, each behind all others.
-/

namespace NameMap

theorem insertEntry_of_lt {α : Type} {name : String} {value : α} {entries : List (String × α)}
    (h : ∀ entry ∈ entries, entry.1 < name) :
    insertEntry name value entries = entries ++ [(name, value)] := by
  induction entries with
  | nil => rfl
  | cons entry rest ih =>
      rw [List.forall_mem_cons] at h
      have hnot : ¬ name < entry.1 := fun hlt => String.lt_irrefl _ (String.lt_trans h.1 hlt)
      have hne : name ≠ entry.1 := fun heq => String.lt_irrefl name (by rw [heq] at h ⊢; exact h.1)
      rw [insertEntry, if_neg hnot, if_neg hne, ih h.2]
      rfl

variable {f : Option String → Option String}

theorem bare_beq (binds : Bindings) : (binds.bare f == binds) = true := by
  rcases binds with ⟨entries⟩
  change ((entries.map fun entry => (entry.1, entry.2.bare f)) == entries) = true
  induction entries with
  | nil => rfl
  | cons entry rest ih =>
      have hatom : (entry.2.bare f == entry.2) = true := (Atom.bare_beq f _ _).trans (beq_refl _)
      have hentry : ((entry.1, entry.2.bare f) == entry) = true := by
        change (entry.1 == entry.1 && entry.2.bare f == entry.2) = true
        rw [hatom, Bool.and_true]
        exact beq_self_eq_true entry.1
      rw [List.map_cons, List.cons_beq_cons, hentry, ih]
      rfl

end NameMap

namespace Cbor

open Item

def entryItems (entries : List (String × Atom)) : List Item :=
  entries.flatMap fun entry => [.text entry.1, atomItem entry.2]

theorem length_entryItems (entries : List (String × Atom)) :
    (entryItems entries).length = 2 * entries.length := by
  rw [entryItems, List.length_flatMap]
  simp [Nat.mul_comm]

theorem entries_listClip {entries : List (String × Atom)} {depth : Nat}
    (hdepth : depth ≤ nestingLimit) (hmade : ∀ entry ∈ entries, entry.2.Everywhere WellMade)
    (binds : Bindings)
    (hascending : ((binds.entries ++ entries).map Prod.fst).Pairwise (· < ·)) :
    readBindings.entries binds (listClip depth (entryItems entries)) =
      if listNesting (entryItems entries) ≤ depth then
        .ok ⟨binds.entries ++ (NameMap.bare (fun _ => none) ⟨entries⟩).entries⟩
      else .error .syntaxError := by
  induction entries generalizing binds with
  | nil =>
      rw [NameMap.bare, List.map_nil, List.append_nil]
      rfl
  | cons entry rest ih =>
      rcases entry with ⟨name, atom⟩
      rw [List.forall_mem_cons] at hmade
      have hatom : Finds readAtom depth atom :=
        finds_atom atom hmade.1 depth _ (Nat.lt_succ_of_le hdepth)
      have hinsert : binds.insert name (atom.bare fun _ => none) =
          ⟨binds.entries ++ [(name, atom.bare fun _ => none)]⟩ := by
        refine congrArg NameMap.mk (NameMap.insertEntry_of_lt fun entry hentry => ?_)
        rw [List.map_append, List.pairwise_append] at hascending
        exact hascending.2.2 _ (List.mem_map_of_mem hentry) _ List.mem_cons_self
      have hnext := ih hmade.2 (binds.insert name (atom.bare fun _ => none)) (by
        rw [hinsert]
        simpa using hascending)
      have hstep : ∀ items : List Item, readBindings.entries binds
          (.text name :: (atomItem atom).clip depth :: items) = (do
            let value ← readAtom ((atomItem atom).clip depth)
            readBindings.entries (binds.insert name value) items) := fun _ => rfl
      have hitems : entryItems ((name, atom) :: rest) =
          .text name :: atomItem atom :: entryItems rest := rfl
      rw [hitems, listClip_of_leaf rfl, listClip, hstep, hatom, listNesting, listNesting]
      by_cases hnesting : (atomItem atom).nesting ≤ depth
      · simp only [Item.nesting, Nat.zero_max, Nat.max_le, hnesting, true_and, if_true]
        refine hnext.trans ?_
        rw [hinsert, List.append_assoc]
        rfl
      · simp only [Item.nesting, Nat.zero_max, Nat.max_le, hnesting, false_and, if_false]
        rfl

theorem reads_bindings {binds : Bindings} {depth : Nat} (hdepth : depth ≤ nestingLimit + 1)
    (hmade : ∀ entry ∈ binds.entries, entry.2.Everywhere WellMade)
    (hascending : binds.Ascending) :
    Reads readBindings depth (bindingsItem binds) (binds.bare fun _ => none) := by
  cases depth with
  | zero => rfl
  | succ depth =>
      have hnames :
          ((([] : List (String × Atom)) ++ binds.entries).map Prod.fst).Pairwise (· < ·) :=
        List.pairwise_map.mpr hascending
      have hentries := entries_listClip (Nat.le_of_succ_le_succ hdepth) hmade .empty hnames
      unfold Reads bindingsItem readBindings
      rw [Item.clip, Item.nesting]
      simp only [Item.untagged, Nat.add_le_add_iff_right]
      change (readBindings.entries .empty (listClip depth (entryItems binds.entries)) >>= _) = _
      rw [hentries]
      change _ = if listNesting (entryItems binds.entries) ≤ depth then _ else _
      split <;> rfl

theorem sound_bindingsItem {binds : Bindings}
    (h : ∀ entry ∈ binds.entries, entry.2.Everywhere Quiet) : (bindingsItem binds).Sound := by
  refine ⟨rfl, ⟨binds.entries.length, length_entryItems _, rfl⟩, listSound_iff.mpr ?_⟩
  intro item hitem
  rcases List.mem_flatMap.mp hitem with ⟨entry, hentry, hmem⟩
  rcases List.mem_cons.mp hmem with rfl | hmem
  · trivial
  · rw [List.mem_singleton.mp hmem]
    exact sound_atomItem entry.2 (h entry hentry)

end Cbor

/-!
## What is restored

Nothing but well-made atoms is restored, since reading goes through the checks that building goes
through.
-/

/-- A restored atom is the stored one, apart from native evaluations and stored parameters. -/
structure Atom.Restores (restored atom : Atom) : Prop where
  sameTerm : SameTerm restored atom
  beq : (restored == atom) = true
  depth : restored.depth = atom.depth
  isConstant : restored.isConstant = atom.isConstant
  type : SameTerm restored.type atom.type
  text : restored.text = atom.text

theorem Atom.restores_bare (atom : Atom) : Restores (atom.bare fun _ => none) atom where
  sameTerm := sameTerm_bare _ atom
  beq := (bare_beq _ atom atom).trans (beq_refl atom)
  depth := depth_bare _ atom
  isConstant := isConstant_bare _ atom
  type := sameTerm_type_bare _ atom
  text := text_bare _ atom

/-- A restored binding set binds the same names in the same order to restored atoms. -/
structure NameMap.Restores (restored binds : Bindings) : Prop where
  entries : List.Forall₂ (fun entry other => entry.1 = other.1 ∧ entry.2.Restores other.2)
    restored.entries binds.entries
  beq : (restored == binds) = true

theorem NameMap.restores_bare (binds : Bindings) : Restores (binds.bare fun _ => none) binds where
  entries := by
    rw [NameMap.bare, List.forall₂_map_left_iff, List.forall₂_same]
    exact fun entry _ => ⟨rfl, entry.2.restores_bare⟩
  beq := bare_beq binds

theorem Atom.Restores.built {restored atom : Atom} (h : restored.Restores atom)
    (hbuilt : restored.Built) : atom.Built :=
  hbuilt.of_like h.sameTerm

theorem NameMap.Restores.built {restored binds : Bindings} (h : restored.Restores binds)
    (hbuilt : ∀ entry ∈ restored.entries, entry.2.Built) :
    ∀ entry ∈ binds.entries, entry.2.Built := by
  rcases restored with ⟨found⟩
  rcases binds with ⟨entries⟩
  have hentries := h.entries
  simp only at hentries hbuilt ⊢
  clear h
  induction hentries with
  | nil => exact List.forall_mem_nil _
  | cons hentry _ ih =>
      rw [List.forall_mem_cons] at hbuilt ⊢
      exact ⟨hentry.2.built hbuilt.1, ih hbuilt.2⟩

/-- An atom in which no float is no number.  No list that a machine holds has as many bytes as an
unsigned word counts. -/
structure Atom.Storable (atom : Atom) : Prop where
  notNaN : atom.Everywhere NotNaN
  length : atom.encode.length < Number.twoTo 64

structure NameMap.Storable (binds : Bindings) : Prop where
  ascending : binds.Ascending
  notNaN : ∀ entry ∈ binds.entries, entry.2.Everywhere NotNaN
  length : binds.encode.length < Number.twoTo 64

namespace Cbor

open Item

theorem decode_encode_quiet {atom : Atom} (hquiet : atom.Everywhere Quiet)
    (hlength : atom.encode.length < Number.twoTo 64) (hbuilt : atom.Built) :
    Atom.decode atom.encode =
      if (atomItem atom).nesting ≤ nestingLimit then .ok (atom.bare fun _ => none)
      else .error .syntaxError :=
  decode_write (sound_atomItem atom hquiet) hlength
    (finds_atom atom hbuilt nestingLimit _ (Nat.lt_succ_self _))

theorem decode_encode_atom {atom : Atom} (h : atom.Storable) (hbuilt : atom.Built) :
    Atom.decode atom.encode =
      if (atomItem atom).nesting ≤ nestingLimit then .ok (atom.bare fun _ => none)
      else .error .syntaxError :=
  decode_encode_quiet (everywhere_imp (fun _ => NotNaN.quiet) atom h.notNaN) h.length hbuilt

theorem decode_encode_bindings {binds : Bindings} (h : binds.Storable)
    (hbuilt : ∀ entry ∈ binds.entries, entry.2.Built) :
    NameMap.decode binds.encode =
      if (bindingsItem binds).nesting ≤ nestingLimit then .ok (binds.bare fun _ => none)
      else .error .syntaxError :=
  decode_write
    (sound_bindingsItem fun entry hentry =>
      everywhere_imp (fun _ => NotNaN.quiet) entry.2 (h.notNaN entry hentry)) h.length
    (reads_bindings (Nat.le_succ _) hbuilt h.ascending)

/-- What is well made is restored, unless more containers are open at once in its stored form than
the reader allows: then the reading stops with an error.  Nothing else is restored. -/
theorem decode_encode {atom : Atom} {binds : Bindings} (hatom : atom.Storable)
    (hbinds : binds.Storable) :
    (atom.Built → nestingLimit < (atomItem atom).nesting ∧
        Atom.decode atom.encode = .error .syntaxError ∨
      ∃ restored, Atom.decode atom.encode = .ok restored ∧ restored.Restores atom) ∧
    ((∀ entry ∈ binds.entries, entry.2.Built) → nestingLimit < (bindingsItem binds).nesting ∧
        NameMap.decode binds.encode = .error .syntaxError ∨
      ∃ restored, NameMap.decode binds.encode = .ok restored ∧ restored.Restores binds) ∧
    (∀ restored, Atom.decode atom.encode = .ok restored → restored.Restores atom → atom.Built) ∧
    ∀ restored, NameMap.decode binds.encode = .ok restored → restored.Restores binds →
      ∀ entry ∈ binds.entries, entry.2.Built := by
  refine ⟨fun hbuilt => ?_, fun hbuilt => ?_, fun restored hdecode h => ?_,
    fun restored hdecode h => ?_⟩
  · have hdecode := decode_encode_atom hatom hbuilt
    by_cases hnesting : (atomItem atom).nesting ≤ nestingLimit
    · rw [if_pos hnesting] at hdecode
      exact Or.inr ⟨_, hdecode, atom.restores_bare⟩
    · rw [if_neg hnesting] at hdecode
      exact Or.inl ⟨Nat.lt_of_not_le hnesting, hdecode⟩
  · have hdecode := decode_encode_bindings hbinds hbuilt
    by_cases hnesting : (bindingsItem binds).nesting ≤ nestingLimit
    · rw [if_pos hnesting] at hdecode
      exact Or.inr ⟨_, hdecode, binds.restores_bare⟩
    · rw [if_neg hnesting] at hdecode
      exact Or.inl ⟨Nat.lt_of_not_le hnesting, hdecode⟩
  · exact h.built (Atom.built_of_decode hdecode)
  · exact h.built (NameMap.built_of_decode hdecode).2

def storedSum : Atom :=
  Operator.assembled { Operator.sum with native := some "sum" }
    [.ofLiteral (.float ⟨0x3FF8000000000000⟩),
      .lambda (.var ":1" .any none 1 .new) (.var ":1" .any none 1 .new) .new]
    ⟨[("a", .integer 1)]⟩

theorem built_storedSum : storedSum.Built := by decide

theorem notNaN_storedSum : storedSum.Everywhere NotNaN := by decide

def storedBindings : Bindings := ⟨[("s", storedSum), ("x", .integer (-1))]⟩

theorem storable_storedSum : storedSum.Storable where
  notNaN := notNaN_storedSum
  length := by decide +kernel

theorem built_storedBindings : ∀ entry ∈ storedBindings.entries, entry.2.Built := by decide

theorem storable_storedBindings : storedBindings.Storable where
  ascending := by
    have hname : "s" < "x" := by decide
    exact List.pairwise_cons.mpr ⟨List.forall_mem_singleton.mpr hname, List.pairwise_singleton _ _⟩
  notNaN := by decide
  length := by decide +kernel

theorem decode_encode_stored :
    storedSum.Storable ∧ storedBindings.Storable ∧ storedSum.Built ∧
      (∀ entry ∈ storedBindings.entries, entry.2.Built) ∧
      (∃ restored, Atom.decode storedSum.encode = .ok restored ∧ restored.Restores storedSum) ∧
      ∃ restored, NameMap.decode storedBindings.encode = .ok restored ∧
        restored.Restores storedBindings := by
  have hstored := decode_encode storable_storedSum storable_storedBindings
  refine ⟨storable_storedSum, storable_storedBindings, built_storedSum,
    built_storedBindings, ?_, ?_⟩
  · refine (hstored.1 built_storedSum).resolve_left fun h => ?_
    exact absurd h.1 (by decide +kernel)
  · refine (hstored.2.1 built_storedBindings).resolve_left fun h => ?_
    exact absurd h.1 (by decide +kernel)

def greatestVariable : Atom := .var ":18446744073709551615" .any none 18446744073709551615 .new

/-- The lambda that is made of a variable and the variable of the greatest index. -/
def exhaustedLambda : Atom := .lambda (.var ":0" .any none 0 (.made [0, 3])) greatestVariable .new

theorem not_built_exhaustedLambda : ¬ exhaustedLambda.Built := by decide

theorem message_exhaustedLambda :
    ((Atom.decode exhaustedLambda.encode).map fun _ => ()).mapError ReadError.message? =
      .error (some "expected a variable, got `$:0`") := by
  decide +kernel

/-- A lambda is made, but not restored, and the limit of the reader is not reached. -/
theorem decode_encode_not_restored :
    (Engine.idle.lambda (.free "x" .any) greatestVariable).result = .ok exhaustedLambda ∧
      exhaustedLambda.Storable ∧ (atomItem exhaustedLambda).nesting ≤ nestingLimit ∧
      Atom.decode exhaustedLambda.encode ≠ .error .syntaxError ∧
      ¬ ∃ restored, Atom.decode exhaustedLambda.encode = .ok restored ∧
        restored.Restores exhaustedLambda := by
  have hmessage := message_exhaustedLambda
  refine ⟨rfl, ⟨by decide, by decide +kernel⟩, by decide +kernel, ?_, ?_⟩
  · intro hdecode
    rw [hdecode] at hmessage
    cases hmessage
  · rintro ⟨restored, hdecode, h⟩
    exact not_built_exhaustedLambda (h.built (Atom.built_of_decode hdecode))

end Cbor
end Equational
