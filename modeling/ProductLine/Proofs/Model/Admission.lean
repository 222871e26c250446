import ProductLine.Proofs.Formula.Atoms
import ProductLine.Proofs.Model.Sessions

/-!
Which formulas a model takes up as constraints. Features stay declared under their names through
calls of every kind, so a name is told from the store of features; the first name that is not
declared, or is a number's where it is a literal, keeps the formula out.
-/
namespace ProductLine

namespace Declared
variable {m m' : FeatureModel} {c : Call}

theorem change (d : Declared m.features m.byName) (change : Change m m') :
    Declared m'.features m'.byName := by
  cases change with
  | declare fresh => exact d.push fresh
  | describe found => exact d.describe found
  | addRoot | addChild | adjust | constrain => exact d

theorem success (d : Declared m.features m.byName) {answer : Answer}
    (done : c.perform.apply m = (.ok answer, m')) : Declared m'.features m'.byName := by
  cases c with
  | addRoot f =>
    obtain ⟨_, done, -⟩ := Build.applyReturnOk.mp done
    obtain ⟨-, rfl⟩ := Build.addRootOk.mp done
    exact d
  | addChild p f =>
    obtain ⟨_, done, -⟩ := Build.applyReturnOk.mp done
    obtain ⟨_, -, -, rfl⟩ := Build.addChildOk.mp done
    exact d
  | addRootFeature name =>
    obtain ⟨_, done, -⟩ := Build.applyReturnOk.mp done
    obtain ⟨f, middle, declared, placed⟩ := Build.applyBindOk.mp done
    obtain ⟨fresh, -, rfl⟩ := Build.declareOk.mp declared
    obtain ⟨-, rfl⟩ := Build.addRootOk.mp placed
    exact d.push fresh
  | addChildFeature p name =>
    obtain ⟨_, done, -⟩ := Build.applyReturnOk.mp done
    obtain ⟨f, middle, declared, placed⟩ := Build.applyBindOk.mp done
    obtain ⟨fresh, -, rfl⟩ := Build.declareOk.mp declared
    obtain ⟨_, -, -, rfl⟩ := Build.addChildOk.mp placed
    exact d.push fresh
  | _ => exact d.change (Call.edits rfl done).1

theorem failure (d : Declared m.features m.byName) {failure : Failure}
    (failed : c.perform.apply m = (.error failure, m')) : Declared m'.features m'.byName := by
  cases Call.failed failed with
  | nothing | child => exact d
  | childFeature fresh => exact d.push fresh

end Declared

theorem Session.declared (cs : List Call) :
    Declared (start.run cs).model.features (start.run cs).model.byName := by
  refine runInvariant (P := fun s => Declared s.model.features s.model.byName) ?_
    WellFormed.empty.declared cs
  intro s c d
  rcases s.makeCases c with ⟨answer, m, done, made⟩ | ⟨failure, m, failed, made⟩
  · rw [made]
    exact d.success done
  · rw [made]
    exact d.failure failed

namespace FeatureModel

inductive Offends (m : FeatureModel) (formula : Formula) (name : String) : Rejection → Prop
  | undeclared (none : ∀ f feature, m.feature f = .ok feature → feature.name ≠ name) :
      Offends m formula name (.unknownFeature name)
  | literal {f : FeatureId} {feature : Feature} (stored : m.feature f = .ok feature)
      (named : feature.name = name) (number : feature.type.isNumeric = true)
      (inside : .literal name ∈ formula.subformulas) :
      Offends m formula name (.nonBooleanLiteral name feature.type)

section Admission
variable {m m' : FeatureModel} {formula : Formula} {name : String} {failure : Failure}

theorem containsLiteralPart :
    formula.contains (.literal name) = true ↔ .literal name ∈ formula.subformulas := by
  rw [Formula.containsLiteral, Formula.memAtoms]
  exact and_iff_left rfl

theorem literalNamed (inside : .literal name ∈ formula.subformulas) : name ∈ formula.names := by
  have atom : .literal name ∈ formula.atoms := Formula.memAtoms.mpr ⟨inside, rfl⟩
  exact Formula.memNames.mpr ⟨⟨name, .boolean⟩,
    Formula.memSymbols.mpr ⟨_, atom, List.mem_singleton_self _⟩, rfl⟩

theorem resolveCases (d : Declared m.features m.byName) (formula : Formula) (name : String) :
    (∃ f feature, m.resolve formula name = .ok f ∧ m.feature f = .ok feature ∧ feature.name = name ∧
      ∀ why, ¬ m.Offends formula name why) ∨
    ∃ why, m.resolve formula name = .error (.rejected why) ∧ m.Offends formula name why := by
  cases known : m.byName.get? name with
  | none =>
    refine .inr ⟨.unknownFeature name, ?_, .undeclared fun f feature stored named => ?_⟩
    · rw [resolve, featureByName, known]
      rfl
    · rw [d.names.mpr ⟨feature, fetchEqOk.mp stored, named⟩] at known
      cases known
  | some f =>
    obtain ⟨feature, found, named⟩ := d.names.mp known
    have stored : m.feature f = .ok feature := fetchEqOk.mpr found
    cases refused : feature.type.isNumeric && formula.contains (.literal name) with
    | true =>
      obtain ⟨number, occurs⟩ := Bool.and_eq_true_iff.mp refused
      refine .inr ⟨_, ?_, .literal stored named number (containsLiteralPart.mp occurs)⟩
      simp only [resolve, featureByName, known, stored, bind, Except.bind, refused]
      rfl
    | false =>
      have allowed : feature.type.isNumeric = true → formula.contains (.literal name) = false := by
        simpa using refused
      refine .inl ⟨f, feature, resolveEqOk.mpr ⟨known, feature, found, allowed⟩, stored, named, ?_⟩
      intro why offends
      cases offends with
      | undeclared none => exact none f feature stored named
      | @literal f' feature' stored' named' number inside =>
        cases known.symm.trans (d.names.mpr ⟨feature', fetchEqOk.mp stored', named'⟩)
        cases stored.symm.trans stored'
        cases (containsLiteralPart.mpr inside).symm.trans (allowed number)

theorem resolveOk (d : Declared m.features m.byName) :
    (∃ f, m.resolve formula name = .ok f) ↔ ∀ why, ¬ m.Offends formula name why := by
  rcases resolveCases d formula name with ⟨f, _, done, -, -, fine⟩ | ⟨why, failed, offends⟩
  · exact ⟨fun _ => fine, fun _ => ⟨f, done⟩⟩
  · rw [failed]
    exact ⟨fun done => (nomatch done), fun fine => absurd offends (fine why)⟩

theorem resolveError (d : Declared m.features m.byName)
    (failed : m.resolve formula name = .error failure) :
    ∃ why, m.Offends formula name why ∧ failure = .rejected why := by
  rcases resolveCases d formula name with ⟨f, -, done, -⟩ | ⟨why, refused, offends⟩
  · cases done.symm.trans failed
  · exact ⟨why, offends, Except.error.inj (failed.symm.trans refused)⟩

theorem resolveNamed (d : Declared m.features m.byName) {f : FeatureId}
    (done : m.resolve formula name = .ok f) :
    ∃ feature, m.feature f = .ok feature ∧ feature.name = name := by
  obtain ⟨known, feature, found, -⟩ := resolveEqOk.mp done
  obtain ⟨feature', found', named⟩ := d.names.mp known
  cases found.symm.trans found'
  exact ⟨feature, fetchEqOk.mpr found, named⟩

theorem noneOffends : (∀ name ∈ formula.names, ∀ why, ¬ m.Offends formula name why) ↔
    (∀ name ∈ formula.names, ∃ f feature, m.feature f = .ok feature ∧ feature.name = name) ∧
    ∀ f feature, m.feature f = .ok feature → feature.type.isNumeric = true →
      .literal feature.name ∉ formula.subformulas := by
  constructor
  · intro fine
    constructor
    · intro name mentioned
      by_contra none
      refine fine name mentioned _ (.undeclared fun f feature stored named => none ?_)
      exact ⟨f, feature, stored, named⟩
    · intro f feature stored number inside
      exact fine feature.name (literalNamed inside) _ (.literal stored rfl number inside)
  · rintro ⟨declared, numbers⟩ name mentioned why offends
    cases offends with
    | undeclared none =>
      obtain ⟨f, feature, stored, named⟩ := declared name mentioned
      exact none f feature stored named
    | literal stored named number inside => exact numbers _ _ stored number (named ▸ inside)

theorem accepts (d : Declared m.features m.byName) :
    (∃ index m', (Build.addConstraint formula).apply m = (.ok index, m')) ↔
      ∀ name ∈ formula.names, ∀ why, ¬ m.Offends formula name why := by
  simp only [Build.addConstraintOk]
  constructor
  · rintro ⟨_, _, referenced, done, -⟩ name mentioned
    obtain ⟨f, -, resolved⟩ := forall₂Left (mapMEqOk.mp done) mentioned
    exact (resolveOk d).mp ⟨f, resolved⟩
  · intro fine
    obtain ⟨referenced, done⟩ := mapMExists fun name mentioned =>
      (resolveOk d).mpr (fine name mentioned)
    exact ⟨_, _, referenced, done, rfl, rfl⟩

theorem referencedApart {names : List String} {referenced : List FeatureId} (nodup : names.Nodup)
    (each : List.Forall₂ (fun name f => ∃ feature, m.feature f = .ok feature ∧ feature.name = name)
      names referenced) : referenced.Nodup := by
  refine forall₂Pairwise each nodup fun first second apart same => apart ?_
  obtain ⟨feature, stored, rfl⟩ := first
  obtain ⟨feature', stored', rfl⟩ := second
  subst same
  cases stored.symm.trans stored'
  rfl

theorem refuses (d : Declared m.features m.byName)
    (failed : (Build.addConstraint formula).apply m = (.error failure, m')) :
    m' = m ∧ ∃ before name after why, formula.names = before ++ name :: after ∧
      (∀ fine ∈ before, ∀ why, ¬ m.Offends formula fine why) ∧
      m.Offends formula name why ∧ failure = .rejected why := by
  obtain ⟨failed, same⟩ := Build.addConstraintError.mp failed
  obtain ⟨before, name, after, split, passed, failed⟩ := mapMEqError.mp failed
  obtain ⟨why, offends, rejected⟩ := resolveError d failed
  refine ⟨same, before, name, after, why, split, ?_, offends, rejected⟩
  exact fun fine inside => (resolveOk d).mp (passed fine inside)

end Admission
end FeatureModel

/-- Whatever calls made the model: a formula becomes a constraint if all its names are declared and
none of its literals is a number's name; then it is added as it is, with the features of its names
in the order in which they are first mentioned. Otherwise the first name that is at fault is
reported, and the model stays. -/
theorem constraintTried {cs : List Call} {m : FeatureModel}
    (made : (Session.start.run cs).model = m) (formula : Formula) :
    ((∃ index m', (Build.addConstraint formula).apply m = (.ok index, m')) ↔
      (∀ name ∈ formula.names, ∃ f feature, m.feature f = .ok feature ∧ feature.name = name) ∧
      ∀ f feature, m.feature f = .ok feature → feature.type.isNumeric = true →
        .literal feature.name ∉ formula.subformulas) ∧
    (formula.names.Pairwise fun name later =>
      formula.mentioned.idxOf name < formula.mentioned.idxOf later) ∧
    (∀ index m', (Build.addConstraint formula).apply m = (.ok index, m') →
      index = m.constraints.size ∧ ∃ referenced : List FeatureId,
        m' = { m with constraints := m.constraints.push ⟨formula, referenced⟩ } ∧
        referenced.Nodup ∧
        List.Forall₂ (fun name f => ∃ feature, m.feature f = .ok feature ∧ feature.name = name)
          formula.names referenced) ∧
    ∀ failure m', (Build.addConstraint formula).apply m = (.error failure, m') →
      m' = m ∧ ∃ before name after why, formula.names = before ++ name :: after ∧
        (∀ fine ∈ before, ∀ why, ¬ m.Offends formula fine why) ∧
        m.Offends formula name why ∧ failure = .rejected why := by
  have d : Declared m.features m.byName := made ▸ Session.declared cs
  refine ⟨(FeatureModel.accepts d).trans FeatureModel.noneOffends, formula.namesOrdered, ?_,
    fun _ _ => FeatureModel.refuses d⟩
  intro index m' done
  obtain ⟨referenced, resolved, position, added⟩ := Build.addConstraintOk.mp done
  have each := (mapMEqOk.mp resolved).imp fun name f done => FeatureModel.resolveNamed d done
  exact ⟨position, referenced, added, FeatureModel.referencedApart formula.namesNodup each, each⟩

namespace Example

def quickSlot : Formula :=
  .implies (.literal "Slot") (.comparison .less (.var ⟨"Speed", .integer⟩) (.constant (.int 9)))

def speedAndFan : Formula := .and [.literal "Slot", .literal "Speed", .literal "Fan"]

theorem rackTries : ∃ m, (Session.start.run rackCalls).model = m ∧
    (∃ m', (Build.addConstraint quickSlot).apply m = (.ok 2, m') ∧
      ∃ referenced : List FeatureId,
        m' = { m with constraints := m.constraints.push ⟨quickSlot, referenced⟩ } ∧
        referenced.Nodup) ∧
    ∃ failure, (Build.addConstraint speedAndFan).apply m = (.error failure, m) ∧
      ∃ before name after why, speedAndFan.names = before ++ name :: after ∧
        (∀ fine ∈ before, ∀ why, ¬ m.Offends speedAndFan fine why) ∧
        m.Offends speedAndFan name why ∧ failure = .rejected why := by
  have made : (Session.start.run rackCalls).model = rack := rfl
  have taken : (Build.addConstraint quickSlot).apply rack = (.ok 2, _) := rfl
  have failed : (Build.addConstraint speedAndFan).apply rack =
      (.error (.rejected (.nonBooleanLiteral "Speed" .integer)), rack) := rfl
  obtain ⟨-, -, added, -⟩ := constraintTried made quickSlot
  obtain ⟨-, -, -, refused⟩ := constraintTried made speedAndFan
  obtain ⟨-, referenced, same, nodup, -⟩ := added _ _ taken
  exact ⟨rack, made, ⟨_, taken, referenced, same, nodup⟩, _, failed, (refused _ _ failed).2⟩

end Example
end ProductLine
