import ProductLine.Proofs.Copy.Success
import ProductLine.Proofs.Encoding.Atoms
import ProductLine.Proofs.Formula.Definedness

/-!
Local constraints stay inside their clone. Every feature of such a constraint is resolved to
instances at or below the clone, so the copy names nothing else: a literal is always replaced, and
a value that is compared is always renamed.
-/
namespace ProductLine

namespace Formula
variable {f g : Formula} {v : Variable} {image : Variable → Option Variable}

theorem renamedSpoken (spoken : v ∈ (g.renameVariables image).ownSymbols) (atom : g.isAtom = true) :
    (∃ u, image u = some v) ∨
      v ∈ g.ownSymbols ∧ (g = .literal v.name ∨ .var v ∈ g.terms ∧ image v = none) := by
  cases g with
  | literal name =>
    cases List.mem_singleton.mp spoken
    exact .inr ⟨List.mem_singleton_self _, .inl rfl⟩
  | comparison op lhs rhs =>
    have sides : ∃ u, Term.var u ∈ [lhs, rhs] ∧ (image u).getD u = v := by
      obtain ⟨t', renamed, var⟩ := List.mem_filterMap.mp spoken
      obtain ⟨t, side, rfl⟩ := List.mem_map.mp
        (show t' ∈ [lhs, rhs].map (Term.rename image) from renamed)
      cases t with
      | var u => exact ⟨u, side, Option.some.inj var⟩
      | _ => cases var
    obtain ⟨u, side, same⟩ := sides
    cases renamed : image u with
    | some w =>
      rw [renamed] at same
      exact .inl ⟨u, same ▸ renamed⟩
    | none =>
      rw [renamed] at same
      cases same
      exact .inr ⟨comparedSpoken side, .inr ⟨side, renamed⟩⟩
  | _ => cases atom

end Formula

namespace Roster

def NamesBelow (r : Roster) (top : InstanceId) (name : String) : Prop :=
  ∃ j x, r.Within top j ∧ r.instances[j.index]? = some x ∧ x.identifier = name

end Roster

section Local
variable {m : FeatureModel} {trees : List Tree} {r : Roster} {policy : MissingPolicy}
  {k : Constraint} {f : FeatureId} {c : NodeId} {clone : InstanceId} {copied g : Formula}
  {resolve : FeatureId → Except Failure Resolution} {lookup : Formula → Option Formula}
  {image : Variable → Option Variable} {v : Variable} {s : ContextSet}

theorem Rostered.termSpoken (h : Rostered m trees r) {j : InstanceId} {x : Instance}
    (stored : r.instances[j.index]? = some x) (part : g ∈ x.term.atoms)
    (spoken : v ∈ g.ownSymbols) : v.name = x.identifier := by
  obtain ⟨e, found, rfl⟩ := h.instanceEntry stored
  rw [Rostered.entryTerm found, Variable.selectedAtoms, List.mem_singleton] at part
  rw [part, Variable.selectedSymbols, List.mem_singleton] at spoken
  rw [spoken]

theorem CopySource.Rewrites.namesInstance (h : Rostered m trees r) (declared : k ∈ m.constraints)
    (rewrites : (CopySource.mk m r policy).Rewrites resolve k lookup image)
    {seen : InstanceId → Prop} (resolved : ∀ f ∈ k.referenced, ∃ ids,
      resolve f = .ok (.instances ids) ∧ ∀ j ∈ ids, seen j) {name : String}
    (named : name ∈ ((k.formula.substitute lookup).renameVariables image).names) :
    ∃ j x, seen j ∧ r.instances[j.index]? = some x ∧ x.identifier = name := by
  have w := h.wellFormed
  obtain ⟨v, spoken, rfl⟩ := Formula.memNames.mp named
  obtain ⟨_, listed, spoken⟩ := Formula.memSymbols.mp spoken
  rw [Formula.atomsRename] at listed
  obtain ⟨g, part, rfl⟩ := List.mem_map.mp listed
  rcases Formula.renamedSpoken spoken (Formula.memAtoms.mp part).2 with ⟨u, renamed⟩ | ⟨own, kind⟩
  · obtain ⟨f, referenced, reference, single, x, done, alone, stored, -, rfl⟩ :=
      rewrites.given u v renamed
    obtain ⟨ids, answered, all⟩ := resolved f referenced
    have made := CopySource.referParts done
    rw [made.resolved, alone] at answered
    cases answered
    exact ⟨single, x, all single (List.mem_singleton_self _), stored, rfl⟩
  · rw [Formula.atomsSubstitute rewrites.atoms, List.mem_flatMap] at part
    obtain ⟨a, inside, part⟩ := part
    cases put : lookup a with
    | some new =>
      rw [put, Option.getD_some] at part
      obtain ⟨f, referenced, reference, done, -, rfl⟩ := rewrites.put a new put
      obtain ⟨ids, answered, all⟩ := resolved f referenced
      have made := CopySource.referParts done
      obtain ⟨terms, read, replacement⟩ := made.instances ids
        (Except.ok.inj (made.resolved.symm.trans answered))
      rw [replacement, Formula.atomsDisjunction, List.mem_flatMap] at part
      obtain ⟨t, listed, part⟩ := part
      obtain ⟨j, member, x, stored, rfl⟩ := forall₂Right (Roster.termsEqOk.mp read) listed
      exact ⟨j, x, all j member, stored, (h.termSpoken stored part own).symm⟩
    | none =>
      rw [put, Option.getD_none, Formula.atomsAtom (Formula.memAtoms.mp inside).2,
        List.mem_singleton] at part
      subst part
      rcases kind with rfl | ⟨term, unrenamed⟩
      · obtain ⟨f, -, -, reference, -, -, found⟩ := rewrites.literalPut w declared inside
        cases put.symm.trans found
      · obtain ⟨f, referenced, -, feature, known, source, -⟩ :=
          w.namedFeature declared (Formula.varNamed (Formula.memAtoms.mp inside).1 term)
        obtain ⟨reference, done, -⟩ := rewrites.found f referenced
        have made := CopySource.referParts done
        cases known.symm.trans made.known
        obtain ⟨ids, answered, -⟩ := resolved f referenced
        obtain ⟨single, x, -, -, renamed⟩ := rewrites.valueSole w inside put term referenced done
          (Except.ok.inj (made.resolved.symm.trans answered)) source
        cases unrenamed.symm.trans renamed

theorem Rostered.seenInside (h : Rostered m trees r) (instant : clone ∈ r.ofNode c)
    (own : m.context f = .ok (.within c)) : ∃ ids,
      (CopySource.mk m r policy).seenFrom c clone f = .ok (.instances ids) ∧
      ∀ j ∈ ids, r.Within clone j := by
  obtain ⟨repeated, n, placed, within, -⟩ := h.wellFormed.contextWithin own
  obtain ⟨answer, answered, answers⟩ := CopySource.seenFromOk h repeated instant f
  cases answer with
  | itself => cases placed.symm.trans answers
  | instances ids =>
    obtain ⟨-, -, n', placed', exact⟩ := answers
    cases placed.symm.trans placed'
    refine ⟨ids, answered policy, fun j inside => ?_⟩
    rcases (exact j).mp inside with ⟨-, under, -⟩ | ⟨outside, -⟩
    · exact under
    · exact absurd within outside

theorem guardedInside (h : Rostered m trees r) (declared : k ∈ m.constraints)
    (answered : m.contexts k = .ok s) (inside : s.scope = .inside c) (instant : clone ∈ r.ofNode c)
    (done : (CopySource.mk m r policy).guarded c clone k = .ok copied) :
    ∃ x body, r.instances[clone.index]? = some x ∧ copied = .implies x.term body ∧
      ∀ name ∈ copied.names, r.NamesBelow clone name := by
  have w := h.wellFormed
  obtain ⟨x, fetched, rest⟩ := bindEqOk.mp done
  obtain ⟨body, made, last⟩ := bindEqOk.mp rest
  cases pureEqOk.mp last
  have stored : r.instances[clone.index]? = some x := fetchEqOk.mp fetched
  refine ⟨x, body, stored, rfl, fun name named => ?_⟩
  obtain ⟨lookup, image, rewrites, rfl⟩ := CopySource.copyRewrites w made
  obtain ⟨v, spoken, rfl⟩ := Formula.memNames.mp named
  obtain ⟨g, part, own⟩ := Formula.memSymbols.mp spoken
  rcases Formula.memImpliesAtoms.mp part with guard | part
  · exact ⟨clone, x, .refl, stored, (h.termSpoken stored guard own).symm⟩
  · refine rewrites.namesInstance h declared (fun f referenced => ?_)
      (Formula.memNames.mpr ⟨v, Formula.memSymbols.mpr ⟨g, part, own⟩, rfl⟩)
    exact h.seenInside instant (w.insideOwn answered inside referenced)

/-- The copies of a local constraint name nothing but the clone and what is below it, so whatever is
selected elsewhere makes no difference to them. -/
theorem copiesLocal (built : Built m) {u : Unrolling} {b : Buckets} {out : List Formula}
    (unrolled : m.unroll = .ok u) (buckets : m.buckets = .ok b)
    (done : (CopySource.mk m u.roster policy).copies b = .ok out) :
    ∃ occasions : List Occasion, (∀ o, o ∈ occasions ↔ o.Due m u.roster) ∧
      List.Forall₂ (fun o copied => (CopySource.mk m u.roster policy).copyFor o = .ok copied ∧
        ∀ i c clone k s, o = .perClone i c clone → m.constraints[i]? = some k →
          m.contexts k = .ok s → s.scope = .inside c →
          (∃ x body, u.roster.instances[clone.index]? = some x ∧ copied = .implies x.term body) ∧
          (∀ name ∈ copied.names, u.roster.NamesBelow clone name) ∧
          ∀ a a' : Assignment,
            (∀ name, u.roster.NamesBelow clone name → a.get? name = a'.get? name) →
            copied.evaluate a = copied.evaluate a') occasions out := by
  obtain ⟨trees, h⟩ := built.wellFormed.rostered unrolled
  have each := CopySource.copiesEach done
  refine ⟨Occasion.ofBuckets u.roster b, fun o => h.occasionDue buckets,
    List.forall₂_iff_zip.mpr ⟨each.length_eq, fun {o copied} pair => ?_⟩⟩
  have made := List.forall₂_zip each pair
  refine ⟨made, fun i c clone k s same there answered inside => ?_⟩
  subst same
  obtain ⟨-, -, -, -, -, -, instant⟩ :=
    h.cloneDue ((h.occasionDue buckets).mp (List.of_mem_zip pair).1)
  rw [CopySource.copyForClone (fetchEqOk.mpr there)] at made
  obtain ⟨x, body, stored, guard, below⟩ :=
    guardedInside h (Array.mem_of_getElem? there) answered inside instant made
  exact ⟨⟨x, body, stored, guard⟩, below, fun a a' agree =>
    Formula.evaluateCongr fun name named => agree name (below name named)⟩

end Local

theorem Example.rackLocal : Built rack ∧ ∃ u b out, rack.unroll = .ok u ∧ rack.buckets = .ok b ∧
    (CopySource.mk rack u.roster .fail).copies b = .ok out ∧
    ∃ copied ∈ out, (CopySource.mk rack u.roster .fail).copyFor (.perClone 1 ⟨1⟩ ⟨1⟩) = .ok copied ∧
      (∀ name ∈ copied.names, u.roster.NamesBelow ⟨1⟩ name) ∧
      ∀ a a' : Assignment, (∀ name, u.roster.NamesBelow ⟨1⟩ name → a.get? name = a'.get? name) →
        copied.evaluate a = copied.evaluate a' := by
  have copies := toOptionEqSome.mp (show (do
      let u ← rack.unroll
      let b ← rack.buckets
      let out ← (CopySource.mk rack u.roster .fail).copies b
      return u.roster.instances[1]?.any (fun x : Instance => x.node == NodeId.mk 1) &&
        out.length == 5).toOption =
      some true by decide +kernel)
  obtain ⟨u, unrolled, rest⟩ := bindEqOk.mp copies
  obtain ⟨b, buckets, rest⟩ := bindEqOk.mp rest
  obtain ⟨out, done, last⟩ := bindEqOk.mp rest
  obtain ⟨x, stored, node⟩ :=
    (Option.any_eq_true _ _).mp (Bool.and_eq_true_iff.mp (pureEqOk.mp last)).1
  have context : (rack.contexts rack.constraints[1]).toOption.any
      (fun s => s.scope == .inside ⟨1⟩) = true := by decide +kernel
  obtain ⟨s, answered, scope⟩ := toOptionAny.mp context
  have inside := beq_iff_eq.mp scope
  obtain ⟨occasions, due, each⟩ := copiesLocal rackBuilt unrolled buckets done
  have own : .within ⟨1⟩ ∈ s := by
    rw [← SortedSet.memToList, ContextSet.scopeInside inside]
    exact List.mem_singleton_self _
  obtain ⟨copied, listed, made, claims⟩ := forall₂Left each ((due (.perClone 1 ⟨1⟩ ⟨1⟩)).mpr
    ⟨_, s, x, rfl, answered, own, stored, beq_iff_eq.mp node⟩)
  obtain ⟨-, below, same⟩ := claims 1 ⟨1⟩ ⟨1⟩ _ s rfl rfl answered inside
  exact ⟨rackBuilt, u, b, out, unrolled, buckets, done, copied, listed, made, below, same⟩

end ProductLine
