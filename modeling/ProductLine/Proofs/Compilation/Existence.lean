import ProductLine.Proofs.Compilation.Success

/-!
Existence constraints: what a constraint that reaches across contexts says of the model as a whole.
A placed feature stands there for the instances of its first node. These are all its instances just
when it has no other node.
-/
namespace ProductLine

def Roster.termsOf (r : Roster) (n : NodeId) : List Formula :=
  (r.ofNode n).filterMap fun i => r.instances[i.index]?.map Instance.term

namespace FeatureModel

def nodeNamed (m : FeatureModel) (name : String) : Option NodeId :=
  (m.featureByName name).bind m.placement

def soleValue (m : FeatureModel) (r : Roster) (v : Variable) : Option Variable :=
  match (m.nodeNamed v.name).map r.ofNode with
  | some [single] => r.instances[single.index]?.map fun x => ⟨x.identifier, v.sort⟩
  | _ => none

/-- What an existence constraint has in the place of an atom: for the literal of a placed feature
the disjunction of the instances of its first node. -/
def standIn (m : FeatureModel) (r : Roster) : Formula → Option Formula
  | .literal name => (m.nodeNamed name).map fun n => .disjunction (r.termsOf n)
  | .comparison op lhs rhs =>
    some (.comparison op (lhs.rename (m.soleValue r)) (rhs.rename (m.soleValue r)))
  | _ => none

def Propositional (m : FeatureModel) (k : Constraint) : Prop :=
  ∀ f ∈ k.referenced, m.features[f.index]?.all (·.type == .boolean) = true

instance (m : FeatureModel) (k : Constraint) : Decidable (m.Propositional k) := by
  unfold Propositional
  infer_instance

end FeatureModel

section Existence
variable {m : FeatureModel} {trees : List Tree} {r : Roster} {policy : MissingPolicy}
  {k : Constraint} {f : FeatureId} {n : NodeId} {v : Variable} {g copied : Formula}
  {lookup : Formula → Option Formula} {image : Variable → Option Variable}
  {reference : CopySource.Reference}

theorem FeatureModel.Propositional.boolean (propositional : m.Propositional k)
    (referenced : f ∈ k.referenced) {feature : Feature}
    (known : m.features[f.index]? = some feature) : feature.type = .boolean := by
  have each := propositional f referenced
  rwa [known, Option.all_some, beq_iff_eq] at each

theorem Roster.termsOfRead {terms : List Formula} (read : r.terms (r.ofNode n) = .ok terms) :
    r.termsOf n = terms := by
  refine forall₂FilterMap ((termsEqOk.mp read).imp fun j g h => ?_)
  obtain ⟨x, stored, term⟩ := h
  rw [stored, Option.map_some, term]

theorem Rostered.booleanTerm (h : Rostered m trees r) (placed : m.placement f = some n)
    {feature : Feature} (known : m.features[f.index]? = some feature)
    (boolean : feature.type = .boolean) (inside : g ∈ r.termsOf n) : ∃ name, g = .literal name := by
  obtain ⟨j, instant, term⟩ := List.mem_filterMap.mp inside
  obtain ⟨e, found, rfl⟩ := h.ofNodeExact.mp instant
  obtain ⟨node, there, carries⟩ := h.wellFormed.placementNode placed
  obtain ⟨stored, known', sorted⟩ := FeatureModel.placedEqOk.mp (h.mirror found).placed
  cases stored.symm.trans there
  rw [carries, known] at known'
  rw [← Option.some.inj known', boolean] at sorted
  rw [h.entryInstance found, Option.map_some, Rostered.entryTerm found,
    show e.tree.place.sort = .boolean from (Option.some.inj sorted).symm] at term
  exact ⟨_, (Option.some.inj term).symm⟩

theorem literalStands (h : Rostered m trees r) (declared : k ∈ m.constraints)
    (propositional : m.Propositional k)
    (rewrites : (CopySource.mk m r policy).Rewrites (CopySource.mk m r policy).everywhere k lookup
      image) {name : String} (inside : .literal name ∈ k.formula.atoms) :
    ((lookup (.literal name)).getD (.literal name)).renameVariables image =
      (m.standIn r (.literal name)).getD (.literal name) := by
  obtain ⟨f, referenced, named, reference, done, target, put⟩ :=
    rewrites.literalPut h.wellFormed declared inside
  have made := CopySource.referParts done
  rw [put, Option.getD_some, FeatureModel.standIn, FeatureModel.nodeNamed,
    show m.featureByName name = some f from named, Option.bind_some]
  cases placed : m.placement f with
  | none =>
    have resolved := Except.ok.inj (made.resolved.symm.trans (CopySource.everywhereItself placed))
    rw [made.itself resolved, target]
    rfl
  | some n =>
    have resolved := Except.ok.inj (made.resolved.symm.trans (CopySource.everywhereListed h placed))
    obtain ⟨terms, read, replacement⟩ := made.instances _ resolved
    rw [replacement, Option.map_some, Option.getD_some, Roster.termsOfRead read]
    refine disjunctionRename image fun g listed => ?_
    obtain ⟨name, rfl⟩ := h.booleanTerm placed made.known
      (propositional.boolean referenced made.known) (Roster.termsOfRead read ▸ listed)
    rfl

theorem comparisonKept (propositional : m.Propositional k)
    (rewrites : (CopySource.mk m r policy).Rewrites (CopySource.mk m r policy).everywhere k lookup
      image) {op : Comparison} {lhs rhs : Term} : lookup (.comparison op lhs rhs) = none := by
  cases put : lookup (.comparison op lhs rhs) with
  | none => rfl
  | some new =>
    obtain ⟨f, referenced, reference, done, test, -⟩ := rewrites.put _ _ put
    have made := CopySource.referParts done
    obtain ⟨sort, typed, target⟩ := made.target
    rw [propositional.boolean referenced made.known] at typed
    cases Option.some.inj typed
    rw [target] at test
    cases test

theorem valueStands (h : Rostered m trees r) (declared : k ∈ m.constraints)
    (rewrites : (CopySource.mk m r policy).Rewrites (CopySource.mk m r policy).everywhere k lookup
      image) (inside : g ∈ k.formula.atoms) (kept : lookup g = none) (term : .var v ∈ g.terms) :
    image v = m.soleValue r v := by
  have w := h.wellFormed
  obtain ⟨f, referenced, named, feature, known, source, -⟩ :=
    w.namedFeature declared (Formula.varNamed (Formula.memAtoms.mp inside).1 term)
  obtain ⟨reference, done, -⟩ := rewrites.found f referenced
  have made := CopySource.referParts done
  cases known.symm.trans made.known
  unfold FeatureModel.soleValue FeatureModel.nodeNamed
  rw [named, Option.bind_some]
  cases placed : m.placement f with
  | none =>
    have resolved := Except.ok.inj (made.resolved.symm.trans (CopySource.everywhereItself placed))
    cases renamed : image v with
    | none => rfl
    | some value =>
      obtain ⟨f', -, reference', single, x, done', alone, -, source', -⟩ :=
        rewrites.given v value renamed
      cases w.featureOfName (CopySource.referParts done').known made.known
        (source'.trans source.symm)
      cases done.symm.trans done'
      cases resolved.symm.trans alone
  | some n =>
    have resolved := Except.ok.inj (made.resolved.symm.trans (CopySource.everywhereListed h placed))
    obtain ⟨single, x, alone, stored, renamed⟩ :=
      rewrites.valueSole w inside kept term referenced done resolved source
    rw [renamed, Option.map_some, alone]
    simp only [stored, Option.map_some]

theorem unguardedStands (h : Rostered m trees r) (declared : k ∈ m.constraints)
    (propositional : m.Propositional k)
    (done : (CopySource.mk m r policy).unguarded k = .ok copied) :
    copied = k.formula.substitute (m.standIn r) := by
  obtain ⟨lookup, image, rewrites, rfl⟩ := CopySource.copyRewrites h.wellFormed done
  refine Formula.rewriteCongr rewrites.atoms (fun g compound => ?_) fun g inside => ?_
  · cases g with
    | literal | comparison => cases compound
    | _ => rfl
  · have atom := (Formula.memAtoms.mp inside).2
    cases g with
    | literal name => exact literalStands h declared propositional rewrites inside
    | comparison op lhs rhs =>
      have kept : lookup (.comparison op lhs rhs) = none := comparisonKept propositional rewrites
      have values : ∀ t ∈ [lhs, rhs], t.rename image = t.rename (m.soleValue r) := by
        intro t side
        cases t with
        | var v => rw [Term.rename, Term.rename, valueStands h declared rewrites inside kept side]
        | _ => rfl
      rw [kept, Option.getD_none, FeatureModel.standIn, Option.getD_some, Formula.renameVariables,
        values lhs (by simp), values rhs (by simp)]
    | _ => cases atom

theorem Rostered.allInstances (h : Rostered m trees r) (placed : m.placement f = some n) :
    (∀ j, j ∈ r.ofNode n ↔ r.isOf f j = true) ↔
      ∀ node ∈ m.nodes, node.feature = f → node.id = n := by
  have w := h.wellFormed
  constructor
  · intro all node inside carries
    obtain ⟨i, there⟩ := Array.mem_iff_getElem?.mp inside
    obtain ⟨j, e, found, id⟩ := h.nodeEntry (n := ⟨i⟩) there
    obtain rfl : e.tree.id.index = i := congrArg NodeId.index id
    have own : r.isOf f ⟨j⟩ = true := Rostered.isOfExact.mpr
      ⟨_, h.entryInstance found, (h.entryFeature found there).trans carries⟩
    obtain ⟨e', found', id'⟩ := h.ofNodeExact.mp ((all ⟨j⟩).mpr own)
    cases found.symm.trans found'
    exact (w.linked.ids there).trans id'
  · intro only j
    obtain ⟨first, there, carries⟩ := w.placementNode placed
    rw [h.ofNodeExact, Rostered.isOfExact]
    constructor
    · intro instant
      obtain ⟨e, found, rfl⟩ := instant
      exact ⟨_, h.entryInstance found, (h.entryFeature found there).trans carries⟩
    · intro own
      obtain ⟨x, stored, has⟩ := own
      obtain ⟨e, found, rfl⟩ := h.instanceEntry stored
      have here := (h.mirror found).stored
      exact ⟨e, found, only _ (Array.mem_of_getElem? here)
        ((h.entryFeature found here).symm.trans has)⟩

theorem existenceListed (w : WellFormed m) {settings : Settings} {out : Compiled}
    (full : settings.encoding = .full) (done : m.compile settings = .ok out) :
    ∃ trees, m.unroll = .ok (.ofForest trees) ∧
      Rostered m trees (Unrolling.ofForest trees).roster ∧
      ∀ k ∈ m.constraints, ∀ s, m.contexts k = .ok s → s.scope = .across →
        ∃ copied ∈ out.conjuncts,
          (CopySource.mk m (Unrolling.ofForest trees).roster settings.missing).unguarded k =
            .ok copied := by
  obtain ⟨_, -, done⟩ := bindEqOk.mp done
  rw [full] at done
  obtain ⟨trees, b, plain, copies, unrolled, h, buckets, -, copied, rfl⟩ := compileFullParts w done
  refine ⟨trees, unrolled, h, fun k declared s answered across => ?_⟩
  obtain ⟨i, there⟩ := Array.mem_iff_getElem?.mp declared
  obtain ⟨whole, listed, made⟩ := CopySource.copiesDue h buckets copied
    (o := .whole i) ⟨k, s, there, answered, across⟩
  rw [CopySource.copyForWhole (fetchEqOk.mpr there)] at made
  exact ⟨whole, List.mem_append_right _ listed, made⟩

/-- In an existence constraint a placed feature stands for the instances of its first node, and so
for all its instances if it has no other node, but not for all of them otherwise. -/
theorem existenceExact (built : Built m) {out : Compiled}
    (done : m.compile ⟨.full, policy⟩ = .ok out) : ∃ u, m.unroll = .ok u ∧
    (∀ k ∈ m.constraints, ∀ s, m.contexts k = .ok s → s.scope = .across → m.Propositional k →
      ∃ copied ∈ out.conjuncts, (CopySource.mk m u.roster policy).unguarded k = .ok copied ∧
        copied = k.formula.substitute (m.standIn u.roster)) ∧
    ∀ f n, m.placement f = some n → ((∀ j, j ∈ u.roster.ofNode n ↔ u.roster.isOf f j = true) ↔
      ∀ node ∈ m.nodes, node.feature = f → node.id = n) := by
  obtain ⟨trees, unrolled, h, each⟩ := existenceListed built.wellFormed rfl done
  refine ⟨_, unrolled, fun k declared s answered across propositional => ?_,
    fun f n placed => h.allInstances placed⟩
  obtain ⟨copied, listed, made⟩ := each k declared s answered across
  exact ⟨copied, listed, made, unguardedStands h declared propositional made⟩

end Existence

namespace Example

theorem rackExistence : Built rack ∧ ∃ k out u s copied, k ∈ rack.constraints ∧
    rack.Propositional k ∧ rack.contexts k = .ok s ∧ s.scope = .across ∧
    rack.compile ⟨.full, .fail⟩ = .ok out ∧ rack.unroll = .ok u ∧ copied ∈ out.conjuncts ∧
    copied = k.formula.substitute (rack.standIn u.roster) := by
  have compiles : (rack.compile ⟨.full, .fail⟩).toOption.isSome = true := by decide +kernel
  obtain ⟨out, done⟩ := toOptionIsSome.mp compiles
  obtain ⟨u, unrolled, each, -⟩ := existenceExact rackBuilt done
  obtain ⟨k, there⟩ : ∃ k, rack.constraints[0]? = some k := ⟨_, rfl⟩
  have declared := Array.mem_of_getElem? there
  cases there
  have scope : (rack.contexts rack.constraints[0]).toOption.any (·.scope == .across) = true := by
    decide +kernel
  obtain ⟨s, context, across⟩ := toOptionAny.mp scope
  have propositional : rack.Propositional rack.constraints[0] := by decide
  obtain ⟨copied, listed, -, same⟩ := each _ declared s context (beq_iff_eq.mp across) propositional
  exact ⟨rackBuilt, _, out, u, s, copied, declared, propositional, context, beq_iff_eq.mp across,
    done, unrolled, listed, same⟩

def hubCalls : List Call :=
  [.addRootFeature "Server", .makeMandatory ⟨0⟩, .addChildFeature ⟨0⟩ "Slot",
    .setCardinality ⟨1⟩ 0 2, .addChildFeature ⟨1⟩ "Port", .addChild ⟨0⟩ ⟨2⟩,
    .addChildFeature ⟨0⟩ "Backup",
    .addConstraint (.implies (.literal "Backup") (.literal "Port"))]

def hub : FeatureModel := (Call.makeAll hubCalls .empty).getD .empty

theorem hubBuilt : Built hub := by
  have made : Call.makeAll hubCalls .empty = some hub := rfl
  exact Built.empty.makeAll made

/-- The existence constraint of the backup leaves out the server's own port. -/
theorem portLeftOut : Built hub ∧ ∃ k out u s copied x, k ∈ hub.constraints ∧
    hub.Propositional k ∧ hub.contexts k = .ok s ∧ s.scope = .across ∧
    hub.compile ⟨.full, .fail⟩ = .ok out ∧ hub.unroll = .ok u ∧ copied ∈ out.conjuncts ∧
    (CopySource.mk hub u.roster .fail).unguarded k = .ok copied ∧
    ⟨2⟩ ∈ k.referenced ∧ hub.placement ⟨2⟩ = some ⟨2⟩ ∧
    u.roster.instances[5]? = some x ∧ x.feature = ⟨2⟩ ∧ copied.contains x.term = false := by
  have compiles : (hub.compile ⟨.full, .fail⟩).toOption.isSome = true := by decide +kernel
  obtain ⟨out, done⟩ := toOptionIsSome.mp compiles
  obtain ⟨trees, unrolled, -, each⟩ := existenceListed hubBuilt.wellFormed rfl done
  obtain ⟨k, there⟩ : ∃ k, hub.constraints[0]? = some k := ⟨_, rfl⟩
  have declared := Array.mem_of_getElem? there
  cases there
  have scope : (hub.contexts hub.constraints[0]).toOption.any (·.scope == .across) = true := by
    decide +kernel
  obtain ⟨s, context, across⟩ := toOptionAny.mp scope
  obtain ⟨copied, listed, made⟩ := each _ declared s context (beq_iff_eq.mp across)
  have checked : hub.unroll.toOption.any (fun u =>
      ((CopySource.mk hub u.roster .fail).unguarded hub.constraints[0]).toOption.any fun copied =>
        u.roster.instances[5]?.any fun x =>
          x.feature == ⟨2⟩ && !copied.contains x.term) = true := by
    decide +kernel
  rw [unrolled] at checked
  simp only [Except.toOption, Option.any_some, made, Option.any_eq_true, Bool.and_eq_true,
    beq_iff_eq, Bool.not_eq_true'] at checked
  obtain ⟨x, stored, own, missing⟩ := checked
  exact ⟨hubBuilt, _, out, _, s, copied, x, declared, by decide, context,
    beq_iff_eq.mp across, done, unrolled, listed, made, by decide, by decide, stored, own, missing⟩

end Example
end ProductLine
