import Equational.Engine
import Equational.Natives
import Equational.Proofs.BareMatching

/-!
# Evaluating bare atoms

Rewriting and application do not look at what is not bare either, provided that
native evaluations do not.  Two evaluations of like atoms have values that are
alike, or fail both; the places that tell new atoms apart do not matter.
-/

namespace Equational

open Atom

variable {f : Option String → Option String}

/-!
## Results
-/

namespace Results

variable {α β γ δ : Type} {R : α → β → Prop} {S : γ → δ → Prop}

theorem andThen {first : Evaluation α} {second : Evaluation β} {next : α → Evaluation γ}
    {next' : β → Evaluation δ} (h : Results R first.result second.result)
    (hnext : ∀ a b, R a b → Results S (next a).result (next' b).result) :
    Results S (first.andThen next).result (second.andThen next').result := by
  unfold Evaluation.andThen
  generalize first.result = result at h ⊢
  generalize second.result = result' at h ⊢
  cases h with
  | ok h => exact hnext _ _ h
  | error error error' => exact .error error error'

theorem bind {first : Evaluation α} {second : Evaluation β} {next : α → Evaluation γ}
    {next' : β → Evaluation δ} (h : Results R first.result second.result)
    (hnext : ∀ a b, R a b → Results S (next a).result (next' b).result) :
    Results S (first >>= next).result (second >>= next').result :=
  andThen h hnext

end Results

theorem Evaluation.results_ofExcept {α β : Type} {R : α → β → Prop} {result : Except TermError α}
    {result' : Except TermError β} (h : Results R result result') :
    Results R (ofExcept result).result (ofExcept result').result := by
  cases h with
  | ok h => exact .ok h
  | error error error' => exact .error error error'

/-!
## Marks
-/

namespace Atom

section

variable (f)

theorem settle_bare (place : Place) (atom : Atom) (parts : Counted (Mark → Atom))
    (hparts : ∀ n mark, ((parts n).1 mark).bare f = atom.bare f) (n : Nat) :
    (Counted.settle place atom parts n).1.bare f = atom.bare f := by
  unfold Counted.settle
  cases atom.mark with
  | new => exact hparts n _
  | common => rfl
  | made place => rfl

mutual

theorem markedFrom_bare (place : Place) : ∀ (atom : Atom) (n : Nat),
    (markedFrom place atom n).1.bare f = atom.bare f
  | typeUniverse mark => settle_bare f place _ _ fun _ _ => rfl
  | root name mark => settle_bare f place _ _ fun _ _ => rfl
  | literal value type mark => by
      refine settle_bare f place _ _ fun n mark => ?_
      exact congrArg (Atom.literal value · .new) (markedFrom_bare place type n)
  | var name type guard index mark => by
      refine settle_bare f place _ _ fun n mark => ?_
      exact congrArg₂ (Atom.var name · · index .new) (markedFrom_bare place type n)
        (optionMarkedFrom_bare place guard _)
  | lambda parameter body mark => by
      refine settle_bare f place _ _ fun n mark => ?_
      exact congrArg₂ (Atom.lambda · · .new) (markedFrom_bare place parameter n)
        (markedFrom_bare place body _)
  | sequence ⟨properties, elements⟩ mark => by
      refine settle_bare f place _ _ fun n mark => ?_
      exact congrArg₂ (fun p l => Atom.sequence ⟨p, l⟩ .new)
        (propertiesMarkedFrom_bare place properties n) (listMarkedFrom_bare place elements _)
  | propertySet properties mark => by
      refine settle_bare f place _ _ fun n mark => ?_
      exact congrArg (Atom.propertySet · .new) (propertiesMarkedFrom_bare place properties n)
  | operator ⟨name, properties, parameters, resultType, native⟩ mark => by
      refine settle_bare f place _ _ fun n mark => ?_
      have hproperties := propertiesMarkedFrom_bare place properties n
      have hparameters := listMarkedFrom_bare place parameters
        (propertiesMarkedFrom place properties n).2
      have hresult := optionMarkedFrom_bare place resultType
        (listMarkedFrom place parameters (propertiesMarkedFrom place properties n).2).2
      change Atom.operator ⟨name, propertiesBare f _, listBare f _, optionBare f _, f native⟩ .new =
        Atom.operator ⟨name, propertiesBare f _, listBare f _, optionBare f _, f native⟩ .new
      rw [hproperties, hparameters, hresult]
  | application head argument bound mark => by
      refine settle_bare f place _ _ fun n mark => ?_
      exact congrArg₂ (Atom.application · · .empty .new) (markedFrom_bare place head n)
        (markedFrom_bare place argument _)

theorem listMarkedFrom_bare (place : Place) : ∀ (list : List Atom) (n : Nat),
    listBare f (listMarkedFrom place list n).1 = listBare f list
  | [], _ => rfl
  | atom :: rest, n =>
      congrArg₂ List.cons (markedFrom_bare place atom n) (listMarkedFrom_bare place rest _)

theorem optionMarkedFrom_bare (place : Place) : ∀ (value : Option Atom) (n : Nat),
    optionBare f (optionMarkedFrom place value n).1 = optionBare f value
  | none, _ => rfl
  | some atom, n => congrArg some (markedFrom_bare place atom n)

theorem propertiesMarkedFrom_bare (place : Place) : ∀ (properties : PropertySet Atom) (n : Nat),
    propertiesBare f (propertiesMarkedFrom place properties n).1 = propertiesBare f properties
  | ⟨a, c, i, b, d⟩, n => by
      refine PropertySet.eq_of_get_eq fun law => ?_
      cases law with
      | associative => exact optionMarkedFrom_bare place a _
      | commutative => exact optionMarkedFrom_bare place c _
      | idempotent => exact optionMarkedFrom_bare place i _
      | absorber => exact optionMarkedFrom_bare place b _
      | identity => exact optionMarkedFrom_bare place d _

end

theorem like_marked (place : Place) (atom : Atom) : Like f (atom.marked place) atom :=
  markedFrom_bare f place atom 0

end

end Atom

theorem NameMap.agree_marked (place : Place) (binds : Bindings) :
    NameMap.Agree f (binds.marked place) binds := by
  have hentries : ∀ (entries : List (String × Atom)) (n : Nat),
      (entriesMarkedFrom place entries n).1.map (fun entry => (entry.1, entry.2.bare f)) =
        entries.map fun entry => (entry.1, entry.2.bare f) := by
    intro entries
    induction entries with
    | nil => exact fun _ => rfl
    | cons entry rest ih =>
        intro n
        rcases entry with ⟨name, atom⟩
        exact congrArg₂ List.cons (congrArg (Prod.mk name) (markedFrom_bare f place atom n)) (ih _)
  exact congrArg NameMap.mk (hentries binds.entries 0)

/-!
## Legal property sets
-/

namespace PropertySet

theorem mayHold_map_bare (value : Option Atom) :
    mayHold (value.map (Atom.bare f)) = mayHold value := by
  cases value with
  | none => rfl
  | some atom => simp [mayHold]

theorem isSome_notBoolean?_bare (properties : Properties) :
    (properties.bare f).notBoolean?.isSome = properties.notBoolean?.isSome := by
  unfold notBoolean?
  rw [List.isSome_findSome?, List.isSome_findSome?]
  congr 1
  funext law
  rw [get_bare]
  cases properties.get law with
  | none => rfl
  | some value =>
      simp only [Option.map_some, isConstant_bare, bool?_bare]
      split
      · rfl
      · rfl

theorem lacksAssociative?_bare (properties : Properties) :
    (properties.bare f).lacksAssociative? = properties.lacksAssociative? := by
  unfold lacksAssociative?
  rw [associative_bare, idempotent_bare, absorber_bare, identity_bare, mayHold_map_bare,
    mayHold_map_bare, Option.isSome_map, Option.isSome_map]

theorem results_checked {properties other : Properties} (h : properties.bare f = other.bare f) :
    Results (fun p q : Properties => p.bare f = q.bare f)
      (properties.checked.mapError TermError.property)
      (other.checked.mapError TermError.property) := by
  have hsome : (properties.notBoolean?.or properties.lacksAssociative?).isSome =
      (other.notBoolean?.or other.lacksAssociative?).isSome := by
    rw [Option.isSome_or, Option.isSome_or, ← isSome_notBoolean?_bare (f := f),
      ← lacksAssociative?_bare (f := f), h, isSome_notBoolean?_bare, lacksAssociative?_bare]
  unfold checked
  generalize properties.notBoolean?.or properties.lacksAssociative? = error at hsome ⊢
  generalize other.notBoolean?.or other.lacksAssociative? = error' at hsome ⊢
  cases error with
  | none =>
      cases error' with
      | none => exact .ok h
      | some error' => cases hsome
  | some error =>
      cases error' with
      | none => cases hsome
      | some error' => exact .error _ _

end PropertySet

/-!
## Rewriting

Two values that were rewritten go together, and both or none of them were changed.
-/

def ApplyAgree (f : Option String → Option String)
    (apply apply' : Place → Atom → Atom → Evaluation Atom) : Prop :=
  ∀ (place place' : Place) ⦃head head' : Atom⦄, Like f head head' → ∀ ⦃argument argument' : Atom⦄,
    Like f argument argument' →
      Results (Like f) (apply place head argument).result (apply' place' head' argument').result

/-- Two values that were rewritten go together, and both or neither were changed. -/
structure Rewritten.Agree {α β : Type} (R : α → β → Prop) (new : Rewritten α)
    (other : Rewritten β) :
    Prop where
  value : R new.value other.value
  changed : new.changed = other.changed

namespace Atom

variable {apply apply' : Place → Atom → Atom → Evaluation Atom} {binds binds' : Bindings}

theorem isInert_agree (hbinds : NameMap.Agree f binds binds') {atom atom' : Atom}
    (h : Like f atom atom') : isInert atom binds = isInert atom' binds' := by
  rw [isInert, isInert, hbinds.isEmpty, h.isConstant, ← bindingIndex_bare f atom, h,
    bindingIndex_bare]

theorem results_same {α β : Type} {R : α → β → Prop} {a : α} {b : β} (h : R a b) :
    Results (Rewritten.Agree R) (Rewritten.same a).result (Rewritten.same b).result :=
  .ok ⟨h, rfl⟩

mutual

theorem results_rewriteWith (happly : ApplyAgree f apply apply')
    (hbinds : NameMap.Agree f binds binds') (place place' : Place) : ∀ (atom : Atom) {atom' : Atom},
    Like f atom atom' → Results (Rewritten.Agree (Like f))
      (rewriteWith apply binds place atom).result (rewriteWith apply' binds' place' atom').result
  | typeUniverse mark, _, h => by
      rcases h.typeUniverse with ⟨mark', rfl⟩
      exact results_same h
  | root name mark, _, h => by
      rcases h.root with ⟨mark', rfl⟩
      exact results_same h
  | literal value type mark, _, h => by
      rcases h.literal with ⟨type', mark', rfl, -⟩
      exact results_same h
  | operator op mark, _, h => by
      rcases h.operator with ⟨op', mark', rfl, -⟩
      exact results_same h
  | var name type guard index mark, _, h => by
      rcases h.var with ⟨type', guard', mark', rfl, htype, hguard⟩
      unfold rewriteWith
      rw [isInert_agree hbinds h]
      split
      · exact results_same h
      · have hfind := hbinds.find? name
        generalize binds.find? name = found at hfind ⊢
        generalize binds'.find? name = found' at hfind ⊢
        cases hfind with
        | some hatom => exact .ok ⟨hatom, rfl⟩
        | none =>
            simp only
            split
            · exact results_same h
            · refine Results.bind (results_rewriteWith happly hbinds _ _ type htype) ?_
              intro newType newType' hnewType
              refine Results.bind (results_rewriteOption happly hbinds _ _ guard hguard) ?_
              intro newGuard newGuard' hnewGuard
              simp only [hnewType.changed, hnewGuard.changed]
              split
              · refine .ok ⟨?_, rfl⟩
                rw [Like, bare_var, bare_var, hnewType.value, hnewGuard.value]
              · exact results_same h
  | lambda parameter body mark, _, h => by
      rcases h.lambda with ⟨parameter', body', mark', rfl, hparameter, hbody⟩
      unfold rewriteWith
      rw [isInert_agree hbinds h]
      split
      · exact results_same h
      · refine Results.bind (results_rewriteWith happly hbinds _ _ body hbody) ?_
        intro newBody newBody' hnewBody
        simp only [hnewBody.changed]
        split
        · refine .ok ⟨?_, rfl⟩
          rw [Like, bare_lambda, bare_lambda, hparameter, hnewBody.value]
        · exact results_same h
  | sequence s mark, _, h => by
      rcases h.sequence with ⟨s', mark', rfl, hs⟩
      unfold rewriteWith
      refine Results.bind (results_rewriteSequence happly hbinds _ _ s hs) ?_
      intro new new' hnew
      simp only [hnew.changed]
      split
      · refine .ok ⟨?_, rfl⟩
        rw [Like, bare_sequence, bare_sequence, hnew.value]
      · exact results_same h
  | propertySet properties mark, _, h => by
      rcases h.propertySet with ⟨properties', mark', rfl, hproperties⟩
      unfold rewriteWith
      refine Results.bind (results_rewriteProperties happly hbinds _ _ properties hproperties) ?_
      intro new new' hnew
      simp only [hnew.changed]
      split
      · refine .ok ⟨?_, rfl⟩
        rw [Like, bare_propertySet, bare_propertySet, hnew.value]
      · exact results_same h
  | application head argument bound mark, _, h => by
      rcases h.application with ⟨head', argument', bound', mark', rfl, hhead, hargument⟩
      unfold rewriteWith
      rw [isInert_agree hbinds h]
      split
      · exact results_same h
      · refine Results.bind (results_rewriteWith happly hbinds _ _ head hhead) ?_
        intro newHead newHead' hnewHead
        refine Results.bind (results_rewriteWith happly hbinds _ _ argument hargument) ?_
        intro newArgument newArgument' hnewArgument
        simp only [hnewHead.changed, hnewArgument.changed]
        split
        · exact Results.bind (happly _ _ hnewHead.value hnewArgument.value)
            fun _ _ happlied => .ok ⟨happlied, rfl⟩
        · exact results_same h

theorem results_rewriteSequence (happly : ApplyAgree f apply apply')
    (hbinds : NameMap.Agree f binds binds') (place place' : Place) : ∀ (s : Sequence Atom)
    {s' : Sequence Atom}, s.bare f = s'.bare f →
      Results (Rewritten.Agree fun t t' : Sequence Atom => t.bare f = t'.bare f)
        (rewriteSequence apply binds place s).result
          (rewriteSequence apply' binds' place' s').result
  | ⟨properties, elements⟩, ⟨properties', elements'⟩, h => by
      have hproperties : properties.bare f = properties'.bare f := congrArg Sequence.properties h
      have helements : elements.map (bare f) = elements'.map (bare f) :=
        congrArg Sequence.elements h
      have hinert : Like f (.sequence ⟨properties, elements⟩ .new)
          (.sequence ⟨properties', elements'⟩ .new) := by
        rw [Like, bare_sequence, bare_sequence, h]
      unfold rewriteSequence
      rw [isInert_agree hbinds hinert]
      split
      · exact results_same h
      · refine Results.bind (results_rewriteProperties happly hbinds _ _ properties hproperties) ?_
        intro newProperties newProperties' hnewProperties
        refine Results.bind (results_rewriteList happly hbinds _ _ elements helements) ?_
        intro newElements newElements' hnewElements
        simp only [hnewProperties.changed, hnewElements.changed]
        split
        · refine .ok ⟨?_, rfl⟩
          simp only
          rw [← Sequence.ofList_bare, ← Sequence.ofList_bare, hnewProperties.value,
            hnewElements.value]
        · exact results_same h

theorem results_rewriteList (happly : ApplyAgree f apply apply')
    (hbinds : NameMap.Agree f binds binds') (place place' : Place) : ∀ (list : List Atom)
    {list' : List Atom}, list.map (bare f) = list'.map (bare f) →
      Results (Rewritten.Agree fun l l' : List Atom => l.map (bare f) = l'.map (bare f))
        (rewriteList apply binds place list).result (rewriteList apply' binds' place' list').result
  | [], [], h => results_same h
  | [], _ :: _, h => by cases h
  | _ :: _, [], h => by cases h
  | atom :: rest, atom' :: rest', h => by
      rw [List.map_cons, List.map_cons] at h
      injection h with hatom hrest
      unfold rewriteList
      refine Results.bind (results_rewriteWith happly hbinds _ _ atom hatom) ?_
      intro newAtom newAtom' hnewAtom
      refine Results.bind (results_rewriteList happly hbinds _ _ rest hrest) ?_
      intro newRest newRest' hnewRest
      refine .ok ⟨?_, ?_⟩
      · exact congrArg₂ List.cons hnewAtom.value hnewRest.value
      · simp only [hnewAtom.changed, hnewRest.changed]

theorem results_rewriteOption (happly : ApplyAgree f apply apply')
    (hbinds : NameMap.Agree f binds binds') (place place' : Place) : ∀ (value : Option Atom)
    {value' : Option Atom}, value.map (bare f) = value'.map (bare f) →
      Results (Rewritten.Agree fun v v' : Option Atom => v.map (bare f) = v'.map (bare f))
        (rewriteOption apply binds place value).result
        (rewriteOption apply' binds' place' value').result
  | none, none, h => results_same h
  | none, some _, h => by cases h
  | some _, none, h => by cases h
  | some atom, some atom', h => by
      unfold rewriteOption
      refine Results.bind (results_rewriteWith happly hbinds _ _ atom (Option.some.inj h)) ?_
      intro newAtom newAtom' hnewAtom
      exact .ok ⟨congrArg some hnewAtom.value, hnewAtom.changed⟩

theorem results_rewriteProperties (happly : ApplyAgree f apply apply')
    (hbinds : NameMap.Agree f binds binds') (place place' : Place) :
    ∀ (properties : PropertySet Atom)
    {properties' : PropertySet Atom}, properties.bare f = properties'.bare f →
      Results (Rewritten.Agree fun p p' : Properties => p.bare f = p'.bare f)
        (rewriteProperties apply binds place properties).result
        (rewriteProperties apply' binds' place' properties').result
  | ⟨a, c, i, b, d⟩, ⟨a', c', i', b', d'⟩, h => by
      have hget : ∀ law, ((⟨a, c, i, b, d⟩ : Properties).get law).map (bare f) =
          ((⟨a', c', i', b', d'⟩ : Properties).get law).map (bare f) := by
        intro law
        rw [← PropertySet.get_bare, ← PropertySet.get_bare, h]
      have hinert : Like f (.propertySet ⟨a, c, i, b, d⟩ .new)
          (.propertySet ⟨a', c', i', b', d'⟩ .new) := by
        rw [Like, bare_propertySet, bare_propertySet, h]
      unfold rewriteProperties
      rw [isInert_agree hbinds hinert]
      split
      · exact results_same h
      · refine Results.bind (results_rewriteOption happly hbinds _ _ a (hget .associative)) ?_
        intro newA newA' hnewA
        refine Results.bind (results_rewriteOption happly hbinds _ _ c (hget .commutative)) ?_
        intro newC newC' hnewC
        refine Results.bind (results_rewriteOption happly hbinds _ _ i (hget .idempotent)) ?_
        intro newI newI' hnewI
        refine Results.bind (results_rewriteOption happly hbinds _ _ b (hget .absorber)) ?_
        intro newB newB' hnewB
        refine Results.bind (results_rewriteOption happly hbinds _ _ d (hget .identity)) ?_
        intro newD newD' hnewD
        simp only [hnewA.changed, hnewC.changed, hnewI.changed, hnewB.changed, hnewD.changed]
        split
        · have hnew : (⟨newA.value, newC.value, newI.value, newB.value, newD.value⟩ :
              Properties).bare f =
              PropertySet.bare f
                ⟨newA'.value, newC'.value, newI'.value, newB'.value, newD'.value⟩ := by
            refine PropertySet.eq_of_get_eq fun law => ?_
            rw [PropertySet.get_bare, PropertySet.get_bare]
            cases law with
            | associative => exact hnewA.value
            | commutative => exact hnewC.value
            | idempotent => exact hnewI.value
            | absorber => exact hnewB.value
            | identity => exact hnewD.value
          exact Results.bind (Evaluation.results_ofExcept (PropertySet.results_checked hnew))
            fun _ _ hlegal => .ok ⟨hlegal, rfl⟩
        · exact results_same h

end

end Atom

/-!
## Argument lists
-/

namespace Operator

variable {op op' : Operator Atom}

theorem beq_bare (op other : Operator Atom) : (op.bare f == other.bare f) = (op == other) := by
  have hbeq : ∀ a b : Operator Atom,
      (a == b) = (a.name == b.name && a.fingerprint == b.fingerprint) := fun _ _ => rfl
  rw [hbeq, hbeq, fingerprint_bare, fingerprint_bare]
  rfl

theorem properties_eq_of_bare_eq (h : op.bare f = op'.bare f) :
    op.properties.bare f = op'.properties.bare f :=
  congrArg Operator.properties h

theorem isSome_mismatch?_agree (h : op.bare f = op'.bare f) {requested requested' : Properties}
    (hrequested : requested.bare f = requested'.bare f) :
    (op.mismatch? requested).isSome = (op'.mismatch? requested').isSome := by
  have hentries : List.Forall₂ (fun entry entry' => entry.1 = entry'.1 ∧
      Like f entry.2 entry'.2) requested.specified requested'.specified := by
    refine List.rel_filterMap ?_ (List.forall₂_same.mpr fun law _ => rfl)
    rintro law _ rfl
    have hget : Option.Rel (Like f) (requested.get law) (requested'.get law) := by
      rw [optionRel_like_iff, ← PropertySet.get_bare, ← PropertySet.get_bare, hrequested]
    simp only
    generalize requested.get law = value at hget ⊢
    generalize requested'.get law = value' at hget ⊢
    cases hget with
    | none => exact .none
    | some hvalue => exact .some ⟨rfl, hvalue⟩
  unfold mismatch?
  rw [List.isSome_findSome?, List.isSome_findSome?]
  generalize requested.specified = entries at hentries ⊢
  generalize requested'.specified = entries' at hentries ⊢
  induction hentries with
  | nil => rfl
  | @cons entry entry' rest rest' hentry _ ih =>
      rcases hentry with ⟨hlaw, hvalue⟩
      have hdeclared : Option.Rel (Like f) (op.declared? entry.1) (op'.declared? entry'.1) := by
        rw [hlaw]
        exact PropertySet.effective?_agree (properties_eq_of_bare_eq h) entry'.1
      have hequal : (op.declared? entry.1 == some entry.2) =
          (op'.declared? entry'.1 == some entry'.2) := by
        rw [← beq_some_bare (f := f), optionRel_like_iff.mp hdeclared, hvalue, beq_some_bare]
      have hsome : ∀ (truth : Bool) (error : TermError),
          (if truth then none else some error).isSome = !truth := by
        intro truth error
        cases truth <;> rfl
      rw [List.any_cons, List.any_cons, ih]
      simp only [hsome, hequal]

theorem results_arguments (h : op.bare f = op'.bare f) {argument argument' : Atom}
    (hargument : Like f argument argument') :
    Results (List.Forall₂ (Like f)) (op.arguments argument).result
      (op'.arguments argument').result := by
  cases argument with
  | sequence s mark =>
      rcases hargument.sequence with ⟨s', mark', rfl, hs⟩
      have hmismatch := isSome_mismatch?_agree h
        (show s.properties.bare f = s'.properties.bare f from congrArg Sequence.properties hs)
      unfold arguments
      simp only
      generalize op.mismatch? s.properties = error at hmismatch ⊢
      generalize op'.mismatch? s'.properties = error' at hmismatch ⊢
      cases error with
      | none =>
          cases error' with
          | none => exact .ok (forall₂_like_iff.mpr (congrArg Sequence.elements hs))
          | some error' => cases hmismatch
      | some error =>
          cases error' with
          | none => cases hmismatch
          | some error' => exact .error _ _
  | _ =>
      cases argument' with
      | sequence s mark =>
          rcases hargument.symm.sequence with ⟨s', mark', heq, -⟩
          cases heq
      | _ => exact .ok (.cons hargument .nil)

theorem forall₂_elements_getD {argument argument' : Atom} (h : Like f argument argument') :
    List.Forall₂ (Like f) (argument.elements?.getD [argument])
      (argument'.elements?.getD [argument']) := by
  cases argument with
  | sequence s mark =>
      rcases h.sequence with ⟨s', mark', rfl, hs⟩
      exact forall₂_like_iff.mpr (congrArg Sequence.elements hs)
  | _ =>
      cases argument' with
      | sequence s mark =>
          rcases h.symm.sequence with ⟨s', mark', heq, -⟩
          cases heq
      | _ => exact .cons h .nil

theorem forall₂_flatten (h : op.bare f = op'.bare f) {list list' : List Atom}
    (hlist : List.Forall₂ (Like f) list list') :
    List.Forall₂ (Like f) (op.flatten list) (op'.flatten list') := by
  refine List.rel_flatMap hlist ?_
  intro atom atom' hatom
  cases atom with
  | application head argument bound mark =>
      rcases hatom.application with ⟨head', argument', bound', mark', rfl, hhead, hargument⟩
      cases head with
      | operator inner headMark =>
          rcases hhead.operator with ⟨inner', headMark', rfl, hinner⟩
          have hequal : (inner == op) = (inner' == op') := by
            rw [← beq_bare (f := f) inner, hinner, h, beq_bare]
          simp only [hequal]
          split
          · exact forall₂_elements_getD hargument
          · exact .cons hatom .nil
      | _ =>
          cases head' with
          | operator inner headMark =>
              rcases hhead.symm.operator with ⟨inner', headMark', heq, -⟩
              cases heq
          | _ => exact .cons hatom .nil
  | _ =>
      cases atom' with
      | application head argument bound mark =>
          rcases hatom.symm.application with ⟨head', argument', bound', mark', heq, -⟩
          cases heq
      | _ => exact .cons hatom .nil

theorem optionRel_property (h : op.bare f = op'.bare f) (law : Law) :
    Option.Rel (Like f) (op.properties.get law) (op'.properties.get law) := by
  rw [optionRel_like_iff, ← PropertySet.get_bare, ← PropertySet.get_bare,
    properties_eq_of_bare_eq h]

theorem isIdempotent_agree (h : op.bare f = op'.bare f) :
    op.properties.isIdempotent = op'.properties.isIdempotent := by
  rw [← PropertySet.isIdempotent_bare f, properties_eq_of_bare_eq h, PropertySet.isIdempotent_bare]

theorem isAssociative_agree (h : op.bare f = op'.bare f) :
    op.properties.isAssociative = op'.properties.isAssociative := by
  rw [← PropertySet.isAssociative_bare f, properties_eq_of_bare_eq h,
    PropertySet.isAssociative_bare]

theorem forall₂_simplify (h : op.bare f = op'.bare f) {list list' : List Atom}
    (hlist : List.Forall₂ (Like f) list list') :
    List.Forall₂ (Like f) (op.simplify list) (op'.simplify list') := by
  have hflat := forall₂_flatten h hlist
  have hidentity : Option.Rel (Like f) op.properties.identity op'.properties.identity :=
    optionRel_property h .identity
  have hdistinct : ∀ {first second : List Atom}, List.Forall₂ (Like f) first second →
      List.Forall₂ (Like f) (if op'.properties.isIdempotent then distinct first else first)
        (if op'.properties.isIdempotent then distinct second else second) := by
    intro first second hboth
    cases op'.properties.isIdempotent with
    | true =>
        simp only [if_true]
        rw [forall₂_like_iff] at hboth ⊢
        rw [← distinct_map_bare, ← distinct_map_bare, hboth]
    | false => exact hboth
  unfold simplify
  rw [isIdempotent_agree h]
  generalize op.properties.identity = identity at hidentity ⊢
  generalize op'.properties.identity = identity' at hidentity ⊢
  cases hidentity with
  | none => exact hdistinct hflat
  | some hidentity =>
      refine hdistinct (List.rel_filter ?_ hflat)
      intro atom atom' hatom
      simp only [bne, beq_congr hatom hidentity]

end Operator

/-!
## Application

Native evaluations see the whole call.  They are asked to give the same for calls that are the
same once they are bare.
-/

theorem Findings.results_first {first second : Traced Outcome} (h : Findings f first second)
    (onError onError' : Failure → TermError) :
    Results (NameMap.Agree f) ((first.andThen Outcome.first).value.mapError onError)
      ((second.andThen Outcome.first).value.mapError onError') := by
  have hok : ∀ (outcome : Traced Outcome) (binds : Bindings) (onError : Failure → TermError),
      outcome.alternatives.head? = some binds →
        (outcome.andThen Outcome.first).value.mapError onError = .ok binds := by
    intro outcome binds onError hhead
    rw [Traced.first_value_andThen, (Outcome.first_eq_ok_iff outcome.value binds).mpr hhead]
    rfl
  have herror : ∀ (outcome : Traced Outcome) (onError : Failure → TermError),
      outcome.alternatives = [] →
        ∃ error, (outcome.andThen Outcome.first).value.mapError onError = .error error := by
    intro outcome onError hnil
    rw [Traced.first_value_andThen]
    cases hfirst : outcome.value.first.value with
    | ok binds =>
        have hhead := (Outcome.first_eq_ok_iff outcome.value binds).mp hfirst
        change outcome.alternatives.head? = some binds at hhead
        rw [hnil] at hhead
        cases hhead
    | error failure => exact ⟨_, rfl⟩
  unfold Findings at h
  generalize hfirst : first.alternatives = found at h
  generalize hsecond : second.alternatives = found' at h
  cases h with
  | nil =>
      rcases herror first onError hfirst with ⟨error, herrorFirst⟩
      rcases herror second onError' hsecond with ⟨error', herrorSecond⟩
      rw [herrorFirst, herrorSecond]
      exact .error _ _
  | cons hbinds _ =>
      rw [hok first _ onError (by rw [hfirst, List.head?_cons]),
        hok second _ onError' (by rw [hsecond, List.head?_cons])]
      exact .ok hbinds

/-- Two calls are the same once they are bare. -/
structure Call.Agree (f : Option String → Option String) (call other : Call) : Prop where
  operator : call.operator.bare f = other.operator.bare f
  arguments : call.arguments.bare f = other.arguments.bare f
  bound : NameMap.Agree f call.bound other.bound

theorem Call.Agree.like_asIs {call call' : Call} (h : Call.Agree f call call') :
    Like f call.asIs call'.asIs := by
  rw [Like, Call.asIs, Call.asIs, bare_application, bare_application, bare_operator,
    bare_operator, bare_sequence, bare_sequence, h.operator, h.arguments]

/-- Native evaluations give the same for calls that are the same, once it is bare. -/
def Natives.Agree (f : Option String → Option String) (natives other : Natives) : Prop :=
  ∀ ⦃call call' : Call⦄, Call.Agree f call call' →
    Option.Rel (Like f) (call.operator.native.bind (natives · call))
      (call'.operator.native.bind (other · call'))

namespace Operator

variable {op op' : Operator Atom} {natives natives' : Natives} {evaluate other : GuardEvaluator}

theorem results_copies (hevaluate : evaluate.Agree f other) (name : String) {type type' : Atom}
    (htype : Like f type type') {guard guard' : Option Atom}
    (hguard : Option.Rel (Like f) guard guard')
    (copy count : Nat) :
    Results (List.Forall₂ (Like f)) (copies evaluate name type guard copy count).result
      (copies other name type' guard' copy count).result := by
  induction count generalizing copy with
  | zero => exact .ok .nil
  | succ count ih =>
      have hfree : Like f (.free (name ++ "#" ++ Number.natText copy) type)
          (.free (name ++ "#" ++ Number.natText copy) type') := by
        rw [Like, free, free, bare_var, bare_var, htype]
      have hcopy : ∀ {newGuard newGuard' : Option Atom}, Option.Rel (Like f) newGuard newGuard' →
          Like f (.var (name ++ "#" ++ Number.natText copy) type newGuard 0 .new)
            (.var (name ++ "#" ++ Number.natText copy) type' newGuard' 0 .new) := by
        intro newGuard newGuard' hnew
        rw [Like, bare_var, bare_var, htype, optionRel_like_iff.mp hnew]
      have hempty : NameMap.Agree f NameMap.empty NameMap.empty := rfl
      have hrest : ∀ {newGuard newGuard' : Option Atom}, Option.Rel (Like f) newGuard newGuard' →
          Results (List.Forall₂ (Like f))
            (copies evaluate name type guard (copy + 1) count >>= fun rest =>
              pure (Atom.var
                (name ++ "#" ++ Number.natText copy) type newGuard 0 .new :: rest)).result
            (copies other name type' guard' (copy + 1) count >>= fun rest =>
              pure (Atom.var (name ++ "#" ++ Number.natText copy) type' newGuard' 0 .new ::
                rest)).result :=
        fun hnew => Results.bind (ih (copy + 1)) fun _ _ hrest => .ok (.cons (hcopy hnew) hrest)
      unfold copies
      cases hguard with
      | none => exact Results.bind (R := Option.Rel (Like f)) (.ok .none) fun _ _ => hrest
      | some hcondition =>
          refine Results.bind (hevaluate (hempty.insert _ hfree) hcondition) ?_
          intro renamed renamed' hrenamed
          exact Results.bind (R := Option.Rel (Like f)) (.ok (.some hrenamed)) fun _ _ => hrest

theorem forall₂_parameters (h : op.bare f = op'.bare f) :
    List.Forall₂ (Like f) op.parameters op'.parameters :=
  forall₂_like_iff.mpr (congrArg Operator.parameters h)

theorem results_paddedParameters (hevaluate : evaluate.Agree f other) (h : op.bare f = op'.bare f)
    (arity : Nat) :
    Results (List.Forall₂ (Like f)) (op.paddedParameters evaluate arity).result
      (op'.paddedParameters other arity).result := by
  have hparameters := forall₂_parameters h
  have hlast : Option.Rel (Like f) op.parameters.getLast? op'.parameters.getLast? := by
    rw [optionRel_like_iff, ← List.getLast?_map, ← List.getLast?_map,
      forall₂_like_iff.mp hparameters]
  unfold paddedParameters
  rw [hparameters.length_eq]
  generalize op.parameters.getLast? = last at hlast ⊢
  generalize op'.parameters.getLast? = last' at hlast ⊢
  cases hlast with
  | none => exact .ok .nil
  | @some atom atom' hatom =>
      cases atom with
      | var name type guard index mark =>
          rcases hatom.var with ⟨type', guard', mark', rfl, htype, hguard⟩
          exact Results.bind
            (results_copies hevaluate name htype (optionRel_like_iff.mpr hguard) 1 _)
            fun _ _ hmore => .ok (List.rel_append hparameters hmore)
      | _ =>
          cases atom' with
          | var name type guard index mark =>
              rcases hatom.symm.var with ⟨type', guard', mark', heq, -⟩
              cases heq
          | _ => exact .error _ _

theorem results_bindParameters (hevaluate : evaluate.Agree f other)
    {parameters parameters' arguments arguments' : List Atom}
    (hparameters : List.Forall₂ (Like f) parameters parameters')
    (harguments : List.Forall₂ (Like f) arguments arguments') :
    Results (NameMap.Agree f) (op.bindParameters evaluate parameters arguments).result
      (op'.bindParameters other parameters' arguments').result :=
  Findings.results_first (Element.findings_matchAll
    (agree_listElements hevaluate parameters hparameters) harguments rfl) _ _

theorem results_evaluateCall (hnatives : natives.Agree f natives') {call call' : Call}
    (h : Call.Agree f call call') :
    Results (Like f) (evaluateCall natives call).result (evaluateCall natives' call').result := by
  have hnative := hnatives h
  unfold evaluateCall
  generalize call.operator.native.bind (natives · call) = result at hnative ⊢
  generalize call'.operator.native.bind (natives' · call') = result' at hnative ⊢
  cases hnative with
  | some hresult => exact .ok hresult
  | none => exact .ok h.like_asIs

theorem results_dispatch (hnatives : natives.Agree f natives') (hevaluate : evaluate.Agree f other)
    (h : op.bare f = op'.bare f) {parameters parameters' arguments arguments' : List Atom}
    (hparameters : List.Forall₂ (Like f) parameters parameters')
    (harguments : List.Forall₂ (Like f) arguments arguments') :
    Results (Like f) (op.dispatch natives evaluate parameters arguments).result
      (op'.dispatch natives' other parameters' arguments').result := by
  unfold dispatch
  refine Results.bind (results_bindParameters hevaluate hparameters harguments) ?_
  intro bound bound' hbound
  refine results_evaluateCall hnatives ⟨h, ?_, hbound⟩
  rw [← Sequence.ofList_bare, ← Sequence.ofList_bare, properties_eq_of_bare_eq h,
    forall₂_like_iff.mp harguments]

theorem any_beq_agree {list list' : List Atom} (h : List.Forall₂ (Like f) list list')
    {atom atom' : Atom} (hatom : Like f atom atom') :
    list.any (· == atom) = list'.any (· == atom') := by
  induction h with
  | nil => rfl
  | cons hfirst _ ih => rw [List.any_cons, List.any_cons, ih, beq_congr hfirst hatom]

theorem results_applyAssociative (hnatives : natives.Agree f natives')
    (hevaluate : evaluate.Agree f other) (h : op.bare f = op'.bare f) {list list' : List Atom}
    (hlist : List.Forall₂ (Like f) list list') :
    Results (Like f) (op.applyAssociative natives evaluate list).result
      (op'.applyAssociative natives' other list').result := by
  have harguments := forall₂_simplify h hlist
  have habsorber : Option.Rel (Like f)
      (op.properties.absorber.filter fun absorber => (op.simplify list).any (· == absorber))
      (op'.properties.absorber.filter fun absorber =>
        (op'.simplify list').any (· == absorber)) := by
    have hdeclared : Option.Rel (Like f) op.properties.absorber op'.properties.absorber :=
      optionRel_property h .absorber
    generalize op.properties.absorber = absorber at hdeclared ⊢
    generalize op'.properties.absorber = absorber' at hdeclared ⊢
    cases hdeclared with
    | none => exact .none
    | some hdeclared =>
        simp only [Option.filter_some, any_beq_agree harguments hdeclared]
        split
        · exact .some hdeclared
        · exact .none
  have hidentity : Option.Rel (Like f) op.properties.identity op'.properties.identity :=
    optionRel_property h .identity
  have hdispatch : Results (Like f)
      (do
        let parameters ← op.paddedParameters evaluate (op.simplify list).length
        op.dispatch natives evaluate parameters (op.simplify list)).result
      (do
        let parameters ← op'.paddedParameters other (op'.simplify list').length
        op'.dispatch natives' other parameters (op'.simplify list')).result := by
    rw [harguments.length_eq]
    exact Results.bind (results_paddedParameters hevaluate h _)
      fun _ _ hparameters => results_dispatch hnatives hevaluate h hparameters harguments
  unfold applyAssociative
  simp only
  generalize (op.properties.absorber.filter
    fun absorber => (op.simplify list).any (· == absorber)) = absorber at habsorber ⊢
  generalize (op'.properties.absorber.filter
    fun absorber => (op'.simplify list').any (· == absorber)) = absorber' at habsorber ⊢
  generalize op.properties.identity = identity at hidentity ⊢
  generalize op'.properties.identity = identity' at hidentity ⊢
  generalize op.simplify list = arguments at harguments hdispatch ⊢
  generalize op'.simplify list' = arguments' at harguments hdispatch ⊢
  cases habsorber with
  | some habsorber => exact .ok habsorber
  | none =>
      cases harguments with
      | nil =>
          cases hidentity with
          | none => exact hdispatch
          | some hidentity => exact .ok hidentity
      | cons hfirst hrest =>
          cases hrest with
          | nil => exact .ok hfirst
          | cons _ _ => exact hdispatch

theorem results_applyWith (hnatives : natives.Agree f natives') (hevaluate : evaluate.Agree f other)
    (h : op.bare f = op'.bare f) {argument argument' : Atom}
    (hargument : Like f argument argument') :
    Results (Like f) (op.applyWith natives evaluate argument).result
      (op'.applyWith natives' other argument').result := by
  unfold applyWith
  refine Results.bind (results_arguments h hargument) ?_
  intro list list' hlist
  rw [isAssociative_agree h]
  split
  · exact results_applyAssociative hnatives hevaluate h hlist
  · exact results_dispatch hnatives hevaluate h (forall₂_parameters h) hlist

end Operator

/-!
## The engine

The induction is on how deep applications may be nested.
-/

namespace Atom

variable {natives natives' : Natives}

theorem results_applyLambda {evaluate other : GuardEvaluator} (hevaluate : evaluate.Agree f other)
    (place place' : Place) {parameter parameter' body body' argument argument' : Atom}
    (hparameter : Like f parameter parameter') (hbody : Like f body body')
    (hargument : Like f argument argument') :
    Results (Like f) (applyLambda evaluate place parameter body argument).result
      (applyLambda other place' parameter' body' argument').result := by
  cases parameter with
  | var name type guard index mark =>
      rcases hparameter.var with ⟨type', guard', mark', rfl, htype, hguard⟩
      have hfree : Like f (.var name type guard 0 .new) (.var name type' guard' 0 .new) := by
        rw [Like, bare_var, bare_var, htype, hguard]
      have hmarked : Like f (argument.marked (3 :: place)) (argument'.marked (3 :: place')) :=
        ((like_marked f _ _).trans hargument).trans (like_marked f _ _).symm
      refine Results.andThen (Findings.results_first
        (Matcher.agree_watched (agree_search hevaluate _ hfree) hmarked rfl) _ _) ?_
      intro binds binds' hbinds
      exact hevaluate ((NameMap.agree_marked _ _).trans
        (hbinds.trans (NameMap.agree_marked _ _).symm)) hbody
  | _ =>
      cases parameter' with
      | var name type guard index mark =>
          rcases hparameter.symm.var with ⟨type', guard', mark', heq, -⟩
          cases heq
      | _ => exact .error _ _

theorem results_applyWith (hnatives : natives.Agree f natives') {evaluate other : GuardEvaluator}
    (hevaluate : evaluate.Agree f other) :
    ApplyAgree f (applyWith natives evaluate) (applyWith natives' other) := by
  intro place place' head head' hhead argument argument' hargument
  cases head with
  | operator op mark =>
      rcases hhead.operator with ⟨op', mark', rfl, hop⟩
      exact Operator.results_applyWith hnatives hevaluate hop hargument
  | lambda parameter body mark =>
      rcases hhead.lambda with ⟨parameter', body', mark', rfl, hparameter, hbody⟩
      exact results_applyLambda hevaluate place place' hparameter hbody hargument
  | _ =>
      cases head' with
      | operator op mark =>
          rcases hhead.symm.operator with ⟨op', mark', heq, -⟩
          cases heq
      | lambda parameter body mark =>
          rcases hhead.symm.lambda with ⟨parameter', body', mark', heq, -⟩
          cases heq
      | _ => exact .ok (congrArg₂ (Atom.application · · .empty .new) hhead hargument)

theorem applyAgree_applyWithin (hnatives : natives.Agree f natives') (nesting : Nat) :
    ApplyAgree f (applyWithin natives nesting) (applyWithin natives' nesting) := by
  induction nesting with
  | zero => exact fun _ _ _ _ _ _ _ _ => .error _ _
  | succ nesting ih =>
      intro place place' head head' hhead argument argument' hargument
      refine results_applyWith hnatives ?_ place place' hhead hargument
      intro binds binds' hbinds atom atom' hatom
      exact Results.andThen (results_rewriteWith ih hbinds _ _ atom hatom)
        fun _ _ hnew => .ok hnew.value

end Atom

namespace Engine

variable {engine engine' : Engine}

theorem agree_evaluate (hnatives : engine.natives.Agree f engine'.natives)
    (hnesting : engine.nesting = engine'.nesting) : engine.evaluate.Agree f engine'.evaluate := by
  intro binds binds' hbinds atom atom' hatom
  have happly : ApplyAgree f engine.applyAt engine'.applyAt := by
    have h := applyAgree_applyWithin hnatives engine.nesting
    rw [hnesting] at h
    unfold applyAt
    rwa [hnesting]
  exact Results.andThen (results_rewriteWith happly hbinds _ _ atom hatom)
    fun _ _ hnew => .ok hnew.value

end Engine

/-!
## Standard native evaluations
-/

namespace Call.Agree

variable {call call' : Call}

theorem integers? (h : Call.Agree f call call') : call.integers? = call'.integers? := by
  have helements := Sequence.forall₂_elements h.arguments
  unfold Call.integers?
  generalize call.arguments.elements = elements at helements ⊢
  generalize call'.arguments.elements = elements' at helements ⊢
  induction helements with
  | nil => rfl
  | cons hfirst _ ih => rw [List.mapM_cons, List.mapM_cons, ih, hfirst.int?]

theorem first? (h : Call.Agree f call call') : Option.Rel (Like f) call.first? call'.first? := by
  have hparameters := Operator.forall₂_parameters h.operator
  unfold Call.first?
  generalize call.operator.parameters = parameters at hparameters ⊢
  generalize call'.operator.parameters = parameters' at hparameters ⊢
  cases hparameters with
  | nil => exact .none
  | @cons first first' _ _ hfirst _ =>
      cases first with
      | var name type guard index mark =>
          rcases hfirst.var with ⟨type', guard', mark', rfl, -⟩
          exact h.bound.find? name
      | _ =>
          cases first' with
          | var name type guard index mark =>
              rcases hfirst.symm.var with ⟨type', guard', mark', heq, -⟩
              cases heq
          | _ => exact .none

end Call.Agree

theorem Native.rel_standard {call call' : Call} (h : Call.Agree id call call') (key : String) :
    Option.Rel Alike (standard key call) (standard key call') := by
  have hrefl : ∀ value : Option Atom, Option.Rel Alike value value := by
    intro value
    cases value with
    | none => exact .none
    | some atom => exact .some (Like.refl atom)
  have hint : ∀ {value value' : Option Atom}, Option.Rel (Like id) value value' →
      value.bind Atom.int? = value'.bind Atom.int? := by
    intro value value' hvalue
    cases hvalue with
    | none => rfl
    | some hatom => exact hatom.int?
  have hbool : ∀ {value value' : Option Atom}, Option.Rel (Like id) value value' →
      value.bind Atom.bool? = value'.bind Atom.bool? := by
    intro value value' hvalue
    cases hvalue with
    | none => rfl
    | some hatom => exact hatom.bool?
  have hnames : call.bound.entries.map (fun entry => Atom.symbol entry.1) =
      call'.bound.entries.map fun entry => Atom.symbol entry.1 := by
    have hbare :=
      congrArg (fun binds : Bindings => binds.entries.map fun entry => Atom.symbol entry.1)
      h.bound
    simpa only [NameMap.bare, List.map_map, Function.comp_def] using hbare
  have hlength : call.arguments.length = call'.arguments.length :=
    (Sequence.forall₂_elements h.arguments).length_eq
  unfold standard
  split
  · rw [h.integers?]
    exact hrefl _
  · rw [h.integers?]
    exact hrefl _
  · rw [hint h.first?]
    exact hrefl _
  · rw [hint h.first?]
    exact hrefl _
  · rw [hbool h.first?]
    exact hrefl _
  · rw [h.integers?]
    exact hrefl _
  · exact h.first?
  · rw [hlength]
    exact hrefl _
  · refine .some ?_
    rw [Alike, Like, bare_sequence, bare_sequence, h.arguments]
  · rw [hnames]
    exact hrefl _
  · refine .some ?_
    have hasIs : Like id call.asIs call'.asIs := h.like_asIs
    rw [Alike, Like, bare_sequence, bare_sequence, Sequence.plain, Sequence.plain,
      ← Sequence.ofList_bare, ← Sequence.ofList_bare, List.map_singleton, List.map_singleton, hasIs]
  · exact hrefl _
  · exact .none

theorem Native.agree_standard : Natives.Agree id standard standard := by
  intro call call' h
  have hnative := congrArg Operator.native h.operator
  change call.operator.native = call'.operator.native at hnative
  rw [hnative]
  cases call'.operator.native with
  | none => exact .none
  | some key => exact rel_standard h key

end Equational
