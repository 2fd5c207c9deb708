import Equational.Proofs.Flattening

/-!
# Bracketings

The elements of an associative sequence may be put together in groups first,
and these in larger groups.  Every group is normalized on its own, so that
units and duplicates are gone, and an absorber may stand for it, before the
groups around it are looked at.  The sequence of all groups is the sequence of
all elements nevertheless.
-/

namespace Equational

open Atom

/-- A tree of atoms. -/
inductive Bracketing where
  | leaf (atom : Atom)
  | node (children : List Bracketing)

namespace Bracketing

mutual

/-- The atom that a tree stands for: an inner node is the normal sequence of what its children
stand for. -/
def atom (properties : Properties) : Bracketing → Atom
  | leaf atom => atom
  | node children => .sequence (.ofList properties (listAtoms properties children)) .new

def listAtoms (properties : Properties) : List Bracketing → List Atom
  | [] => []
  | tree :: rest => atom properties tree :: listAtoms properties rest

end

mutual

def leaves : Bracketing → List Atom
  | leaf atom => [atom]
  | node children => listLeaves children

def listLeaves : List Bracketing → List Atom
  | [] => []
  | tree :: rest => leaves tree ++ listLeaves rest

end

mutual

def atoms (properties : Properties) : Bracketing → List Atom
  | leaf atom => [atom]
  | node children => atom properties (node children) :: listAll properties children

def listAll (properties : Properties) : List Bracketing → List Atom
  | [] => []
  | tree :: rest => atoms properties tree ++ listAll properties rest

end

variable {properties : Properties}

theorem atom_mem_atoms (tree : Bracketing) : tree.atom properties ∈ tree.atoms properties := by
  cases tree with
  | leaf atom => exact List.mem_singleton_self atom
  | node children => exact List.mem_cons_self

theorem listAtoms_subset (trees : List Bracketing) :
    listAtoms properties trees ⊆ listAll properties trees := by
  induction trees with
  | nil => exact List.Subset.refl _
  | cons tree rest ih =>
      rw [listAtoms, listAll]
      exact List.cons_subset.mpr ⟨List.mem_append_left _ tree.atom_mem_atoms,
        List.Subset.trans ih (List.subset_append_right _ _)⟩

mutual

theorem leaves_subset : ∀ tree : Bracketing, tree.leaves ⊆ tree.atoms properties
  | leaf _ => List.Subset.refl _
  | node children => List.Subset.trans (listLeaves_subset children) (List.subset_cons_self _ _)

theorem listLeaves_subset : ∀ trees : List Bracketing,
    listLeaves trees ⊆ listAll properties trees
  | [] => List.Subset.refl _
  | tree :: rest =>
      List.append_subset.mpr ⟨List.Subset.trans (leaves_subset tree) (List.subset_append_left _ _),
        List.Subset.trans (listLeaves_subset rest) (List.subset_append_right _ _)⟩

end

theorem isNormal_listAtoms {trees : List Bracketing}
    (h : ∀ atom ∈ listLeaves trees, atom.IsNormal) :
    ∀ atom ∈ listAtoms properties trees, atom.IsNormal := by
  induction trees with
  | nil => exact h
  | cons tree rest ih =>
      rw [listLeaves, List.forall_mem_append] at h
      rw [listAtoms, List.forall_mem_cons]
      refine ⟨?_, ih h.2⟩
      cases tree with
      | leaf atom => exact h.1 atom (List.mem_singleton_self atom)
      | node children => exact isNormal_sequence.mpr (Sequence.normalize_normalize properties _)

end Bracketing

namespace Sequence

variable {properties : Properties} {list other : List Atom}

theorem beq_of_map_key_residue (hassociative : properties.isAssociative = true)
    (htidy : Tidy properties list) (htidy' : Tidy properties other)
    (h : ((reduction properties).residue (flatten properties list)).map (List.map key) =
      ((reduction properties).residue (flatten properties other)).map (List.map key)) :
    (ofList properties list == ofList properties other) = true := by
  refine beq_of_map_key (s := ofList properties list) (t := ofList properties other) rfl ?_
  change (normalize properties list).map key = (normalize properties other).map key
  rcases normalize_spec hassociative htidy with ⟨absorber, hmem, habsorbs, hnormal⟩ | hresidue
  · have hnone := Reduction.residue_eq_none_iff.mpr ⟨absorber, hmem, habsorbs⟩
    rcases normalize_spec hassociative htidy' with ⟨absorber', -, habsorbs', hnormal'⟩ | hresidue'
    · rw [hnormal, hnormal', List.map_singleton, List.map_singleton,
        key_of_absorbs habsorbs habsorbs']
    · rw [hnone, hresidue'] at h
      cases h
  · rcases normalize_spec hassociative htidy' with ⟨absorber', hmem', habsorbs', -⟩ | hresidue'
    · rw [hresidue, Reduction.residue_eq_none_iff.mpr ⟨absorber', hmem', habsorbs'⟩] at h
      cases h
    · rw [hresidue, hresidue'] at h
      exact Option.some.inj h

theorem beq_of_residue (hassociative : properties.isAssociative = true)
    (htidy : Tidy properties list) (htidy' : Tidy properties other)
    (h : (reduction properties).residue (flatten properties list) =
      (reduction properties).residue (flatten properties other)) :
    (ofList properties list == ofList properties other) = true :=
  beq_of_map_key_residue hassociative htidy htidy' (congrArg (Option.map (List.map key)) h)

end Sequence

namespace Bracketing

variable {properties : Properties} {among : Atom → Prop}

mutual

theorem residue_atom (hassociative : properties.isAssociative = true)
    (hcollision : NoCollision among) (hproperties : PropertiesEverywhere among properties) :
    ∀ tree : Bracketing, (∀ atom ∈ tree.atoms properties, atom.Everywhere among) →
    (∀ atom ∈ tree.leaves, atom.IsNormal) →
    (Sequence.reduction properties).residue (Sequence.pieces properties (tree.atom properties)) =
      (Sequence.reduction properties).residue (Sequence.flatten properties tree.leaves)
  | leaf atom, _, _ => by
      rw [Bracketing.atom, leaves, Sequence.flatten, List.flatMap_singleton]
  | node children, hatoms, hnormal => by
      have hchildren := (List.forall_mem_cons.mp hatoms).2
      have htidy := Sequence.tidy_of_noCollision hassociative hcollision hproperties
        (fun a ha => hchildren a (listAtoms_subset children ha)) (isNormal_listAtoms hnormal)
      rw [Bracketing.atom, Sequence.pieces_sequence (PropertySet.beq_refl properties)]
      exact (Sequence.residue_normalize hassociative htidy).trans
        (residue_listAtoms hassociative hcollision hproperties children hchildren hnormal)

theorem residue_listAtoms (hassociative : properties.isAssociative = true)
    (hcollision : NoCollision among) (hproperties : PropertiesEverywhere among properties) :
    ∀ trees : List Bracketing, (∀ atom ∈ listAll properties trees, atom.Everywhere among) →
    (∀ atom ∈ listLeaves trees, atom.IsNormal) →
    (Sequence.reduction properties).residue
        (Sequence.flatten properties (listAtoms properties trees)) =
      (Sequence.reduction properties).residue (Sequence.flatten properties (listLeaves trees))
  | [], _, _ => rfl
  | tree :: rest, hatoms, hnormal => by
      have hatoms := List.forall_mem_append.mp hatoms
      have hnormal := List.forall_mem_append.mp hnormal
      rw [listAtoms, listLeaves, Sequence.flatten, Sequence.flatten, List.flatMap_cons,
        List.flatMap_append]
      exact Reduction.residue_append_congr
        (residue_atom hassociative hcollision hproperties tree hatoms.1 hnormal.1)
        (residue_listAtoms hassociative hcollision hproperties rest hatoms.2 hnormal.2)

end

/-- A sequence of groups is the sequence of their leaves. -/
theorem beq_leaves {trees : List Bracketing} (hassociative : properties.isAssociative = true)
    (hcollision : NoCollision among) (hproperties : PropertiesEverywhere among properties)
    (hatoms : ∀ atom ∈ listAll properties trees, atom.Everywhere among)
    (hnormal : ∀ atom ∈ listLeaves trees, atom.IsNormal) :
    (Sequence.ofList properties (listAtoms properties trees) ==
      Sequence.ofList properties (listLeaves trees)) = true := by
  have hgroups := Sequence.tidy_of_noCollision hassociative hcollision hproperties
    (fun a ha => hatoms a (listAtoms_subset trees ha)) (isNormal_listAtoms hnormal)
  have hleaves := Sequence.tidy_of_noCollision hassociative hcollision hproperties
    (fun a ha => hatoms a (listLeaves_subset trees ha)) hnormal
  exact Sequence.beq_of_residue hassociative hgroups hleaves
    (residue_listAtoms hassociative hcollision hproperties trees hatoms hnormal)

def grouped : List Bracketing :=
  [.leaf (.integer 1), .node [.leaf (.integer 0), .node [.leaf (.integer 2), .leaf (.integer 1)]],
    .leaf (.integer 0), .leaf (.integer 2)]

theorem mem_mixed_of_grouped :
    (∀ atom ∈ listAll Sequence.saturating grouped, atom ∈ Sequence.mixed) ∧
      ∀ atom ∈ listLeaves grouped, atom ∈ Sequence.mixed := by
  have hatoms : listAll Sequence.saturating grouped = [.integer 1,
      .sequence ⟨Sequence.saturating, [.integer 2, .integer 1]⟩ .new, .integer 0,
      .sequence ⟨Sequence.saturating, [.integer 2, .integer 1]⟩ .new, .integer 2, .integer 1,
      .integer 0, .integer 2] := by
    simp only [grouped, listAll, atoms, Bracketing.atom, listAtoms, Sequence.ofList,
      Sequence.normalize_saturating, Sequence.normalize_saturating_nested, List.cons_append,
      List.nil_append]
  rw [hatoms]
  simp [grouped, listLeaves, leaves, Sequence.mixed]

theorem beq_leaves_grouped :
    Sequence.saturating.isAssociative = true ∧ NoCollision (· ∈ Sequence.mixedParts) ∧
      PropertiesEverywhere (· ∈ Sequence.mixedParts) Sequence.saturating ∧
      (∀ atom ∈ listAll Sequence.saturating grouped,
        atom.Everywhere (· ∈ Sequence.mixedParts)) ∧
      (∀ atom ∈ listLeaves grouped, atom.IsNormal) ∧
      (Sequence.ofList Sequence.saturating (listAtoms Sequence.saturating grouped) ==
        Sequence.ofList Sequence.saturating (listLeaves grouped)) = true := by
  rcases Sequence.everywhere_mixed with ⟨hproperties, hmixed⟩
  have hatoms := fun atom hatom => hmixed atom (mem_mixed_of_grouped.1 atom hatom)
  have hnormal := fun atom hatom =>
    Sequence.isNormal_mixed atom (mem_mixed_of_grouped.2 atom hatom)
  exact ⟨rfl, Sequence.noCollision_mixedParts, hproperties, hatoms, hnormal,
    beq_leaves rfl Sequence.noCollision_mixedParts hproperties hatoms hnormal⟩

end Bracketing

end Equational
