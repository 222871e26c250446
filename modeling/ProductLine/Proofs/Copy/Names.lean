import ProductLine.Proofs.Copy.Presence
import ProductLine.Proofs.Formula.Words

/-!
Names of instances. Where declared names cannot be taken for identifiers of clones or of what lies
below them, identifiers can be read back: the first dot ends the name and the number of a clone, and
the last underscore before it ends the name. So an instance named like a feature is an instance of
that feature.
-/
namespace ProductLine

/-- No name has a dot, and none is another one with a number after an underscore. -/
structure FeatureModel.NamesApart (m : FeatureModel) : Prop where
  undotted : ∀ f ∈ m.features, '.' ∉ f.name.toList
  unnumbered : ∀ f ∈ m.features, ∀ g ∈ m.features, ∀ i : Nat,
    f.name ≠ g.name ++ "_" ++ toString i

theorem FeatureModel.namesApart {m : FeatureModel}
    (plain : ∀ f ∈ m.features, '.' ∉ f.name.toList ∧ '_' ∉ f.name.toList) : m.NamesApart where
  undotted := fun f declared => (plain f declared).1
  unnumbered := by
    intro f declared g _ i same
    refine (plain f declared).2 ?_
    simp [same, String.toList_append]

namespace Placed
variable {p q : Placed} {index number : Option Nat} {suffix ending : Option String}

theorem identifierSome (s : String) :
    p.identifier index (some s) = p.identifier index none ++ "." ++ s := by
  simp [identifier, String.append_assoc]

theorem identifierUndotted (undotted : '.' ∉ p.feature.name.toList) :
    '.' ∉ (p.identifier index none).toList := by
  cases index with
  | none => simpa [identifier] using undotted
  | some i =>
    have digits : '.' ∉ Nat.toDigits 10 i := digitsLack rfl
    simpa [identifier, String.toList_append, digits] using undotted

theorem numberedOnce {i j : Nat} (same : p.identifier (some i) none = q.identifier (some j) none) :
    p.feature.name = q.feature.name ∧ i = j := by
  have chars := congrArg (fun s => s.toList.reverse) same
  simp only [identifier, Option.map_some, Option.map_none, Option.getD_some, Option.getD_none,
    String.append_empty, String.toList_append, Nat.toString_eq_repr, Nat.toList_repr,
    List.reverse_append] at chars
  have plain : ∀ k : Nat, '_' ∉ (Nat.toDigits 10 k).reverse := by
    intro k inside
    exact Nat.underscore_not_in_toDigits (List.mem_reverse.mp inside)
  have parts : (Nat.toDigits 10 i).reverse ++ '_' :: p.feature.name.toList.reverse =
      (Nat.toDigits 10 j).reverse ++ '_' :: q.feature.name.toList.reverse := by
    simpa using chars
  obtain ⟨digits, names⟩ := separatedOnce (plain i) (plain j) parts
  exact ⟨String.toList_injective (List.reverse_injective names),
    digitsOnce (List.reverse_injective digits)⟩

theorem baseOnce {m : FeatureModel} (apart : m.NamesApart) (left : p.feature ∈ m.features)
    (right : q.feature ∈ m.features) (same : p.identifier index none = q.identifier number none) :
    p.feature.name = q.feature.name ∧ index = number := by
  have plain : ∀ p : Placed, p.identifier none none = p.feature.name := by
    intro p
    simp [identifier]
  have numbered : ∀ (p : Placed) (i : Nat),
      p.identifier (some i) none = p.feature.name ++ "_" ++ toString i := by
    intro p i
    simp [identifier, String.append_assoc]
  cases index with
  | none =>
    cases number with
    | none => exact ⟨by rw [← plain p, ← plain q, same], rfl⟩
    | some j =>
      rw [plain, numbered] at same
      exact absurd same (apart.unnumbered _ left _ right j)
  | some i =>
    cases number with
    | none =>
      rw [plain, numbered] at same
      exact absurd same.symm (apart.unnumbered _ right _ left i)
    | some j =>
      obtain ⟨names, numbers⟩ := numberedOnce same
      exact ⟨names, congrArg some numbers⟩

theorem identifierOnce {m : FeatureModel} (apart : m.NamesApart) (left : p.feature ∈ m.features)
    (right : q.feature ∈ m.features)
    (same : p.identifier index suffix = q.identifier number ending) :
    p.feature.name = q.feature.name ∧ index = number ∧ suffix = ending := by
  have undotted : ∀ (p : Placed) (index : Option Nat), p.feature ∈ m.features →
      '.' ∉ (p.identifier index none).toList :=
    fun _ _ declared => identifierUndotted (apart.undotted _ declared)
  cases suffix with
  | none =>
    cases ending with
    | none =>
      obtain ⟨names, numbers⟩ := baseOnce apart left right same
      exact ⟨names, numbers, rfl⟩
    | some t =>
      rw [identifierSome] at same
      exact absurd (by simp [same, String.toList_append]) (undotted p index left)
  | some s =>
    cases ending with
    | none =>
      rw [identifierSome] at same
      exact absurd (by simp [← same, String.toList_append]) (undotted q number right)
    | some t =>
      have chars := congrArg String.toList same
      rw [identifierSome, identifierSome] at chars
      have parts : (p.identifier index none).toList ++ '.' :: s.toList =
          (q.identifier number none).toList ++ '.' :: t.toList := by
        simpa [String.toList_append] using chars
      obtain ⟨bases, suffixes⟩ := separatedOnce (undotted p index left)
        (undotted q number right) parts
      obtain ⟨names, numbers⟩ := baseOnce apart left right (String.toList_injective bases)
      exact ⟨names, numbers, congrArg some (String.toList_injective suffixes)⟩

end Placed

namespace Rostered
variable {m : FeatureModel} {trees : List Tree} {r : Roster} {i : Nat} {e : Entry}

def suffixAbove (trees : List Tree) (above : Option InstanceId) : Option String := do
  let p ← above
  let e ← (Unrolling.entries trees)[p.index]?
  e.occurrence.suffix?

theorem entryNamed (found : (Unrolling.entries trees)[i]? = some e) :
    e.occurrence = e.tree.place.occurrence e.occurrence.index (suffixAbove trees e.parent) := by
  cases up : e.parent with
  | none =>
    obtain ⟨t, -, seat⟩ := Unrolling.entryTop (List.mem_of_getElem? found) up
    have tree : e.tree = t := congrArg Prod.fst seat
    have occurrence : e.occurrence = t.occurrence := congrArg Prod.snd seat
    rw [occurrence, tree]
    rfl
  | some p =>
    obtain ⟨above, there, -, inside⟩ := Unrolling.parentEntry found up
    have suffix : suffixAbove trees (some p) = above.occurrence.suffix? := by
      simp [suffixAbove, there]
    rw [suffix]
    exact Placed.spreadOccurrence inside

theorem entryOccurrence (found : (Unrolling.entries trees)[i]? = some e) :
    ∃ index suffix, e.occurrence = e.tree.place.occurrence index suffix :=
  ⟨_, _, entryNamed found⟩

theorem entryTerm (found : (Unrolling.entries trees)[i]? = some e) :
    e.toInstance.term = (Variable.mk e.toInstance.identifier e.tree.place.sort).selected := by
  obtain ⟨index, suffix, same⟩ := entryOccurrence found
  simp only [Entry.toInstance, Occurrence.term, same, Placed.occurrence]

theorem entrySymbol (found : (Unrolling.entries trees)[i]? = some e) :
    e.occurrence.symbol = ⟨e.toInstance.identifier, e.tree.place.sort⟩ := by
  obtain ⟨index, suffix, same⟩ := entryOccurrence found
  rw [Entry.toInstance, same]
  rfl

theorem entryDeclared (h : Rostered m trees r) (found : (Unrolling.entries trees)[i]? = some e) :
    e.tree.place.feature ∈ m.features := by
  obtain ⟨-, known, -⟩ := FeatureModel.placedEqOk.mp (h.mirror found).placed
  exact Array.mem_of_getElem? known

theorem entryName (h : Rostered m trees r) (apart : m.NamesApart)
    (found : (Unrolling.entries trees)[i]? = some e) {feature : Feature}
    (declared : feature ∈ m.features) (same : e.toInstance.identifier = feature.name) :
    e.tree.place.feature.name = feature.name ∧ e.occurrence.index = none ∧
      suffixAbove trees e.parent = none := by
  have named : e.toInstance.identifier =
      e.tree.place.identifier e.occurrence.index (suffixAbove trees e.parent) :=
    congrArg (fun o : Occurrence => o.symbol.name) (entryNamed found)
  have identified : e.tree.place.identifier e.occurrence.index (suffixAbove trees e.parent) =
      ({ e.tree.place with feature } : Placed).identifier none none := by
    rw [← named, same]
    simp [Placed.identifier]
  exact Placed.identifierOnce apart (h.entryDeclared found) declared identified

end Rostered
end ProductLine
