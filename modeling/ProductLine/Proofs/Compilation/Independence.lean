import ProductLine.Proofs.Compilation.Symbols
import ProductLine.Proofs.Copy.Shares

/-!
Constraints are compiled independently of each other. Each has its shares of the conjuncts beside
what the forest gives by itself; a model compiles when the forest does and every share can be made,
and it then has all shares of its constraints, whatever their order.
-/
namespace ProductLine

section Lists
variable {α β γ : Type} {R : α → β → Prop} {xs zs : List α} {ys ws : List β}

theorem forall₂Exists (each : ∀ x ∈ xs, ∃ y, R x y) : ∃ ys, List.Forall₂ R xs ys := by
  induction xs with
  | nil => exact ⟨[], .nil⟩
  | cons x xs ih =>
    obtain ⟨y, head⟩ := each x List.mem_cons_self
    obtain ⟨ys, tail⟩ := ih fun z inside => each z (List.mem_cons_of_mem _ inside)
    exact ⟨y :: ys, .cons head tail⟩

theorem forall₂FlattenPerm {f : α → List γ} {yss : List (List γ)}
    (h : List.Forall₂ (fun x ys => ys.Perm (f x)) xs yss) : yss.flatten.Perm (xs.flatMap f) := by
  induction h with
  | nil => exact .nil
  | cons head _ ih =>
    rw [List.flatten_cons, List.flatMap_cons]
    exact head.append ih

theorem forall₂Reordered (single : ∀ x y y', R x y → R x y' → y = y') (perm : zs.Perm xs)
    (h : List.Forall₂ R xs ys) (other : List.Forall₂ R zs ws) : ws.Perm ys := by
  obtain ⟨ws', related, same⟩ := List.perm_comp_forall₂ perm h
  cases List.right_unique_forall₂' (fun {x y y'} => single x y y') other related
  exact same

end Lists

def Encoding.ofForest (trees : List Tree) : Encoding → Compiled
  | full => ⟨(Unrolling.ofForest trees).conjuncts, (Unrolling.ofForest trees).symbols⟩
  | simple =>
    ⟨trees.flatMap fun t => t.place.rootConjuncts ++ t.mergedBody,
      .ofList ((trees.flatMap Tree.places).flatMap fun p =>
        (p.spread none).occurrences.map Occurrence.symbol)⟩

namespace FeatureModel

def shares (m : FeatureModel) (settings : Settings) (trees : List Tree) (k : Constraint) :
    List (Except Failure Formula) :=
  match settings.encoding with
  | .full => (CopySource.mk m (Unrolling.ofForest trees).roster settings.missing).shares k
  | .simple => [Merging.restate ((trees.flatMap Tree.places).filter fun p => p.node.isRepeated) k]

def Fits (m : FeatureModel) (settings : Settings) (trees : List Tree) (k : Constraint) : Prop :=
  m.checkConstraint k = .ok () ∧ ∀ share ∈ m.shares settings trees k, ∃ f, share = .ok f

/-- The forest of `m` under constraints of these formulas, added one by one, compiles to `out`. -/
def Gives (m : FeatureModel) (settings : Settings) (formulas : List Formula) (out : Compiled) :
    Prop :=
  ∃ m', (m.holding []).constrain formulas = some m' ∧ m'.compile settings = .ok out

end FeatureModel

section Holding
variable {m : FeatureModel} {trees : List Tree} {ks : List Constraint} {k : Constraint}
  {settings : Settings} {policy : MissingPolicy} {out : Compiled}

theorem compiledForest (w : WellFormed m) (done : m.compile settings = .ok out) :
    ∃ trees, m.forest = .ok trees := by
  obtain ⟨_, -, done⟩ := bindEqOk.mp done
  obtain ⟨encoding, policy⟩ := settings
  cases encoding with
  | full =>
    obtain ⟨_, _, _, _, unrolled, -⟩ := compileFullParts w done
    obtain ⟨trees, grown, -⟩ := mapEqOk.mp unrolled
    exact ⟨trees, grown⟩
  | simple =>
    obtain ⟨trees, _, grown, -⟩ := compileSimpleParts w done
    exact ⟨trees, grown⟩

theorem checkHolding : (m.holding ks).check = .ok () ↔
    m.roots ≠ [] ∧ ∀ k ∈ ks, m.checkConstraint k = .ok () := by
  simp only [checkOk, checkConstraintOk, FeatureModel.holding, List.mem_toArray]
  constructor
  · intro h
    exact ⟨h.1, fun k declared => ⟨fun many => h.2.1 many k declared, h.2.2 k declared⟩⟩
  · intro h
    exact ⟨h.1, fun many k declared => (h.2 k declared).1 many,
      fun k declared => (h.2 k declared).2⟩

theorem fullShares (w : WellFormed (m.holding ks)) (grown : m.forest = .ok trees)
    (done : (m.holding ks).compileFull policy = .ok out) :
    ∃ added : List Formula,
      (added.map Except.ok).Perm (ks.flatMap (m.shares ⟨.full, policy⟩ trees)) ∧
      out = .ofConjuncts (Unrolling.ofForest trees).symbols
        ((Unrolling.ofForest trees).conjuncts ++ added) := by
  obtain ⟨trees', b, plain, copies, grown', h, buckets, read, copied, rfl⟩ :=
    compileFullParts w done
  have again : (m.holding ks).unroll = .ok (.ofForest trees) :=
    mapEqOk.mpr ⟨trees, FeatureModel.forestHolding ▸ grown, rfl⟩
  rw [Except.ok.inj (grown'.symm.trans again)] at copied ⊢
  have sound := h.sound
  rw [Except.ok.inj (grown'.symm.trans again)] at sound
  exact ⟨plain ++ copies, CopySource.sharesTogether w sound buckets read copied,
    by rw [List.append_assoc]⟩

theorem fullSuffices (w : WellFormed (m.holding ks)) (grown : m.forest = .ok trees)
    (each : ∀ k ∈ ks, ∀ share ∈ m.shares ⟨.full, policy⟩ trees k, ∃ f, share = .ok f) :
    ∃ out, (m.holding ks).compileFull policy = .ok out := by
  have unrolled : (m.holding ks).unroll = .ok (.ofForest trees) :=
    mapEqOk.mpr ⟨trees, FeatureModel.forestHolding ▸ grown, rfl⟩
  obtain ⟨trees', h⟩ := w.rostered unrolled
  obtain ⟨all, -, sorted⟩ := w.bucketsOk
  obtain ⟨plain, read⟩ := w.plainOk sorted
  obtain ⟨copies, copied⟩ := CopySource.sharesSuffice h sorted each
  exact ⟨_, bindEqOk.mpr ⟨_, unrolled, bindEqOk.mpr ⟨_, sorted, bindEqOk.mpr ⟨_, read,
    bindEqOk.mpr ⟨_, copied, rfl⟩⟩⟩⟩⟩

theorem simpleShares (w : WellFormed (m.holding ks)) (grown : m.forest = .ok trees)
    (done : (m.holding ks).compileSimple = .ok out) :
    ∃ added : List Formula,
      (added.map Except.ok).Perm (ks.flatMap (m.shares ⟨.simple, policy⟩ trees)) ∧
      out = .ofConjuncts (Encoding.simple.ofForest trees).symbols
        ((Encoding.simple.ofForest trees).conjuncts ++ added) := by
  obtain ⟨trees', added, grown', h, each, rfl⟩ := compileSimpleParts w done
  rw [FeatureModel.forestHolding] at grown'
  cases grown.symm.trans grown'
  rw [FeatureModel.holdingConstraints, mapMEqOk] at each
  refine ⟨added, .of_eq ?_, rfl⟩
  rw [← mapsEqual.mpr each, List.map_eq_flatMap]
  rfl

theorem simpleSuffices (grown : m.forest = .ok trees)
    (each : ∀ k ∈ ks, ∀ share ∈ m.shares ⟨.simple, policy⟩ trees k, ∃ f, share = .ok f) :
    ∃ out, (m.holding ks).compileSimple = .ok out := by
  obtain ⟨restated, done⟩ := mapMExists fun k listed => each k listed _ (List.mem_singleton_self _)
  exact ⟨_, bindEqOk.mpr ⟨_, bindEqOk.mpr ⟨trees, FeatureModel.forestHolding ▸ grown,
    bindEqOk.mpr ⟨restated, done, rfl⟩⟩, rfl⟩⟩

theorem holdingShares (w : WellFormed m) (admitted : ∀ k ∈ ks, m.Admits k)
    (grown : m.forest = .ok trees) (done : (m.holding ks).compile settings = .ok out) :
    ∃ added : List Formula,
      (added.map Except.ok).Perm (ks.flatMap (m.shares settings trees)) ∧
      out = .ofConjuncts (settings.encoding.ofForest trees).symbols
        ((settings.encoding.ofForest trees).conjuncts ++ added) := by
  obtain ⟨_, -, done⟩ := bindEqOk.mp done
  obtain ⟨encoding, policy⟩ := settings
  cases encoding with
  | full => exact fullShares (w.holding admitted) grown done
  | simple => exact simpleShares (w.holding admitted) grown done

theorem holdingCompiles (w : WellFormed m) (admitted : ∀ k ∈ ks, m.Admits k) :
    (∃ out, (m.holding ks).compile settings = .ok out) ↔
      m.roots ≠ [] ∧ ∃ trees, m.forest = .ok trees ∧ ∀ k ∈ ks, m.Fits settings trees k := by
  have w' := w.holding admitted
  constructor
  · intro compiled
    obtain ⟨out, done⟩ := compiled
    obtain ⟨_, checked, -⟩ := bindEqOk.mp done
    obtain ⟨rooted, checked⟩ := checkHolding.mp checked
    obtain ⟨trees, grown⟩ := compiledForest w' done
    rw [FeatureModel.forestHolding] at grown
    refine ⟨rooted, trees, grown, fun k listed => ⟨checked k listed, fun share own => ?_⟩⟩
    obtain ⟨added, perm, -⟩ := holdingShares w admitted grown done
    have inside := perm.mem_iff.mpr (List.mem_flatMap.mpr ⟨k, listed, own⟩)
    obtain ⟨f, -, rfl⟩ := List.mem_map.mp inside
    exact ⟨f, rfl⟩
  · intro h
    obtain ⟨rooted, trees, grown, fits⟩ := h
    have checked := checkHolding.mpr ⟨rooted, fun k listed => (fits k listed).1⟩
    have each := fun k listed => (fits k listed).2
    obtain ⟨encoding, policy⟩ := settings
    cases encoding with
    | full =>
      obtain ⟨out, done⟩ := fullSuffices w' grown each
      exact ⟨out, bindEqOk.mpr ⟨(), checked, done⟩⟩
    | simple =>
      obtain ⟨out, done⟩ := simpleSuffices grown each
      exact ⟨out, bindEqOk.mpr ⟨(), checked, done⟩⟩

theorem holdingAlone (w : WellFormed m) (rooted : m.roots ≠ []) (admits : m.Admits k)
    (grown : m.forest = .ok trees) (fits : m.Fits settings trees k) :
    ∃ part : List Formula, (part.map Except.ok).Perm (m.shares settings trees k) ∧
      (m.holding [k]).compile settings =
        .ok (.ofConjuncts (settings.encoding.ofForest trees).symbols
        ((settings.encoding.ofForest trees).conjuncts ++ part)) := by
  have admitted : ∀ k' ∈ [k], m.Admits k' := List.forall_mem_singleton.mpr admits
  obtain ⟨out, done⟩ := (holdingCompiles w admitted).mpr
    ⟨rooted, trees, grown, List.forall_mem_singleton.mpr fits⟩
  obtain ⟨part, perm, rfl⟩ := holdingShares w admitted grown done
  rw [List.flatMap_cons, List.flatMap_nil, List.append_nil] at perm
  exact ⟨part, perm, done⟩

theorem holdingBare (w : WellFormed m) (rooted : m.roots ≠ []) (grown : m.forest = .ok trees) :
    (m.holding []).compile settings = .ok (.ofConjuncts (settings.encoding.ofForest trees).symbols
      (settings.encoding.ofForest trees).conjuncts) := by
  have admitted : ∀ k ∈ [], m.Admits k := List.forall_mem_nil _
  obtain ⟨out, done⟩ := (holdingCompiles w admitted).mpr
    ⟨rooted, trees, grown, List.forall_mem_nil _⟩
  obtain ⟨added, perm, rfl⟩ := holdingShares w admitted grown done
  cases List.map_eq_nil_iff.mp perm.eq_nil
  rw [done, List.append_nil]

theorem holdingParts (w : WellFormed m) (admitted : ∀ k ∈ ks, m.Admits k)
    (done : (m.holding ks).compile settings = .ok out) :
    ∃ bare parts, (m.holding []).compile settings = .ok bare ∧
      List.Forall₂ (fun k part => ∃ alone, (m.holding [k]).compile settings = .ok alone ∧
        alone.conjuncts = bare.conjuncts ++ part) ks parts ∧
      out.conjuncts.Perm (bare.conjuncts ++ parts.flatten) := by
  obtain ⟨rooted, trees, grown, fits⟩ := (holdingCompiles w admitted).mp ⟨out, done⟩
  obtain ⟨added, perm, rfl⟩ := holdingShares w admitted grown done
  obtain ⟨parts, each⟩ := forall₂Exists fun k listed =>
    holdingAlone w rooted (admitted k listed) grown (fits k listed)
  refine ⟨_, parts, holdingBare w rooted grown, each.imp fun k part alone =>
    ⟨_, alone.2, rfl⟩, List.Perm.append_left _ ?_⟩
  have all : (parts.flatten.map Except.ok).Perm (ks.flatMap (m.shares settings trees)) := by
    rw [List.map_flatten]
    exact forall₂FlattenPerm (List.forall₂_map_right_iff.mpr (each.imp fun k part alone => alone.1))
  exact (List.map_perm_map_iff fun f g same => Except.ok.inj same).mp (perm.trans all.symm)

theorem holdingSymbols (w : WellFormed m) (admitted : ∀ k ∈ ks, m.Admits k)
    (grown : m.forest = .ok trees) (done : (m.holding ks).compile settings = .ok out)
    {v : Variable} : v ∈ out.symbols ↔ v ∈ (settings.encoding.ofForest trees).symbols ∨
      (∃ g ∈ (settings.encoding.ofForest trees).conjuncts, v ∈ g.symbols) ∨
      ∃ k ∈ ks, ∃ g, .ok g ∈ m.shares settings trees k ∧ v ∈ g.symbols := by
  obtain ⟨added, perm, rfl⟩ := holdingShares w admitted grown done
  have fromShare : ∀ g, g ∈ added ↔ ∃ k ∈ ks, .ok g ∈ m.shares settings trees k := by
    intro g
    rw [← List.mem_flatMap, ← perm.mem_iff, List.mem_map]
    constructor
    · intro inside
      exact ⟨g, inside, rfl⟩
    · intro h
      obtain ⟨g', inside, same⟩ := h
      exact Except.ok.inj same ▸ inside
  rw [Compiled.memSymbols]
  simp only [List.mem_append, or_and_right, exists_or, fromShare]
  refine or_congr_right (or_congr_right ?_)
  constructor
  · intro h
    obtain ⟨g, ⟨k, listed, own⟩, spoken⟩ := h
    exact ⟨k, listed, g, own, spoken⟩
  · intro h
    obtain ⟨k, listed, g, own, spoken⟩ := h
    exact ⟨g, ⟨k, listed, own⟩, spoken⟩

theorem aloneSymbols (w : WellFormed m) (rooted : m.roots ≠ []) (admits : m.Admits k)
    (grown : m.forest = .ok trees) (fits : m.Fits settings trees k) {v : Variable} :
    (∃ alone, (m.holding [k]).compile settings = .ok alone ∧ v ∈ alone.symbols) ↔
      v ∈ (settings.encoding.ofForest trees).symbols ∨
      (∃ g ∈ (settings.encoding.ofForest trees).conjuncts, v ∈ g.symbols) ∨
      ∃ g, .ok g ∈ m.shares settings trees k ∧ v ∈ g.symbols := by
  obtain ⟨part, -, compiled⟩ := holdingAlone w rooted admits grown fits
  have spoken := holdingSymbols w (List.forall_mem_singleton.mpr admits) grown compiled (v := v)
  simpa only [compiled, Except.ok.injEq, exists_eq_left', List.mem_singleton, exists_eq_left]
    using spoken

theorem holdingUnion (w : WellFormed m) (admitted : ∀ k ∈ ks, m.Admits k) (nonempty : ks ≠ [])
    (done : (m.holding ks).compile settings = .ok out) {v : Variable} : v ∈ out.symbols ↔
      ∃ k ∈ ks, ∃ alone, (m.holding [k]).compile settings = .ok alone ∧ v ∈ alone.symbols := by
  obtain ⟨rooted, trees, grown, fits⟩ := (holdingCompiles w admitted).mp ⟨out, done⟩
  have single := fun k listed =>
    aloneSymbols w rooted (admitted k listed) grown (fits k listed) (v := v)
  obtain ⟨k₀, listed⟩ := List.exists_mem_of_ne_nil ks nonempty
  rw [holdingSymbols w admitted grown done]
  constructor
  · intro said
    rcases said with forest | forest | ⟨k, listed, own⟩
    · exact ⟨k₀, listed, (single k₀ listed).mpr (.inl forest)⟩
    · exact ⟨k₀, listed, (single k₀ listed).mpr (.inr (.inl forest))⟩
    · exact ⟨k, listed, (single k listed).mpr (.inr (.inr own))⟩
  · intro h
    obtain ⟨k, listed, said⟩ := h
    exact ((single k listed).mp said).imp_right (Or.imp_right fun own => ⟨k, listed, own⟩)

end Holding

structure FeatureModel.Independent (m : FeatureModel) (settings : Settings)
    (formulas : List Formula) : Prop where
  accepted : (∃ m', (m.holding []).constrain formulas = some m') ↔
    ∀ f ∈ formulas, ∃ m', (m.holding []).constrain [f] = some m'
  compiles : (∃ out, m.Gives settings formulas out) ↔
    ∀ f ∈ formulas, ∃ out, m.Gives settings [f] out
  conjuncts : ∀ out, m.Gives settings formulas out → ∃ bare parts, m.Gives settings [] bare ∧
    List.Forall₂ (fun f part => ∃ alone, m.Gives settings [f] alone ∧
      alone.conjuncts = bare.conjuncts ++ part) formulas parts ∧
    out.conjuncts.Perm (bare.conjuncts ++ parts.flatten)
  symbols : ∀ out, m.Gives settings formulas out → ∀ v, v ∈ out.symbols ↔
    ∃ f ∈ formulas, ∃ alone, m.Gives settings [f] alone ∧ v ∈ alone.symbols
  reordered : ∀ others : List Formula, others.Perm formulas →
    ((∃ m', (m.holding []).constrain others = some m') ↔
      ∃ m', (m.holding []).constrain formulas = some m') ∧
    ((∃ out, m.Gives settings others out) ↔ ∃ out, m.Gives settings formulas out) ∧
    ∀ out out', m.Gives settings formulas out → m.Gives settings others out' →
      out'.conjuncts.Perm out.conjuncts ∧ out'.symbols = out.symbols

section Giving
variable {m : FeatureModel} {settings : Settings} {formulas others : List Formula} {f : Formula}
  {k : Constraint} {out out' : Compiled}

theorem givesEq : m.Gives settings formulas out ↔ ∃ ks, formulas.mapM m.constraintOf = .ok ks ∧
    (m.holding ks).compile settings = .ok out := by
  unfold FeatureModel.Gives
  simp only [FeatureModel.constrainEqSome]
  constructor
  · intro h
    obtain ⟨_, ⟨ks, resolved, rfl⟩, done⟩ := h
    exact ⟨ks, resolved, done⟩
  · intro h
    obtain ⟨ks, resolved, done⟩ := h
    exact ⟨_, ⟨ks, resolved, rfl⟩, done⟩

theorem givesBare : m.Gives settings [] out ↔ (m.holding []).compile settings = .ok out := by
  simp [givesEq, pure, Except.pure]

theorem givesAlone (resolved : m.constraintOf f = .ok k) :
    m.Gives settings [f] out ↔ (m.holding [k]).compile settings = .ok out := by
  simp [givesEq, resolved, bind, Except.bind, pure, Except.pure]

theorem givesOnce (first : m.Gives settings formulas out)
    (second : m.Gives settings formulas out') : out = out' := by
  obtain ⟨ks, resolved, done⟩ := givesEq.mp first
  obtain ⟨ks', resolved', done'⟩ := givesEq.mp second
  cases resolved.symm.trans resolved'
  exact Except.ok.inj (done.symm.trans done')

theorem resolvedAdmitted {ks : List Constraint} (resolved : formulas.mapM m.constraintOf = .ok ks) :
    ∀ k ∈ ks, m.Admits k := by
  intro k listed
  rw [mapMEqOk] at resolved
  obtain ⟨f, -, own⟩ := forall₂Right resolved listed
  exact (FeatureModel.constraintOfEqOk.mp own).2

theorem acceptedEach : (∃ m', (m.holding []).constrain formulas = some m') ↔
    ∀ f ∈ formulas, ∃ k, m.constraintOf f = .ok k := by
  simp only [FeatureModel.constrainEqSome]
  constructor
  · intro h f listed
    obtain ⟨_, ks, resolved, -⟩ := h
    rw [mapMEqOk] at resolved
    obtain ⟨k, -, own⟩ := forall₂Left resolved listed
    exact ⟨k, own⟩
  · intro each
    obtain ⟨ks, resolved⟩ := mapMExists each
    exact ⟨_, ks, resolved, rfl⟩

theorem givesFits (w : WellFormed m) : (∃ out, m.Gives settings formulas out) ↔
    m.roots ≠ [] ∧ ∃ trees, m.forest = .ok trees ∧
      ∀ f ∈ formulas, ∃ k, m.constraintOf f = .ok k ∧ m.Fits settings trees k := by
  constructor
  · intro given
    obtain ⟨out, given⟩ := given
    obtain ⟨ks, resolved, done⟩ := givesEq.mp given
    obtain ⟨rooted, trees, grown, fits⟩ :=
      (holdingCompiles w (resolvedAdmitted resolved)).mp ⟨out, done⟩
    refine ⟨rooted, trees, grown, fun f listed => ?_⟩
    rw [mapMEqOk] at resolved
    obtain ⟨k, member, own⟩ := forall₂Left resolved listed
    exact ⟨k, own, fits k member⟩
  · intro h
    obtain ⟨rooted, trees, grown, each⟩ := h
    obtain ⟨ks, resolved⟩ := mapMExists fun f listed => (each f listed).imp fun k fit => fit.1
    have fits : ∀ k ∈ ks, m.Fits settings trees k := by
      intro k member
      rw [mapMEqOk] at resolved
      obtain ⟨f, listed, own⟩ := forall₂Right resolved member
      obtain ⟨k', own', fit⟩ := each f listed
      cases own.symm.trans own'
      exact fit
    obtain ⟨out, done⟩ := (holdingCompiles w (resolvedAdmitted resolved)).mpr
      ⟨rooted, trees, grown, fits⟩
    exact ⟨out, givesEq.mpr ⟨ks, resolved, done⟩⟩

theorem givesEach (w : WellFormed m) (nonempty : formulas ≠ []) :
    (∃ out, m.Gives settings formulas out) ↔ ∀ f ∈ formulas, ∃ out, m.Gives settings [f] out := by
  simp only [givesFits w, List.forall_mem_singleton]
  constructor
  · intro h f listed
    obtain ⟨rooted, trees, grown, each⟩ := h
    exact ⟨rooted, trees, grown, each f listed⟩
  · intro each
    obtain ⟨f₀, first⟩ := List.exists_mem_of_ne_nil formulas nonempty
    obtain ⟨rooted, trees, grown, -⟩ := each f₀ first
    refine ⟨rooted, trees, grown, fun f listed => ?_⟩
    obtain ⟨-, trees', grown', fit⟩ := each f listed
    cases grown.symm.trans grown'
    exact fit

theorem givesParts (w : WellFormed m) (given : m.Gives settings formulas out) :
    ∃ bare parts, m.Gives settings [] bare ∧
      List.Forall₂ (fun f part => ∃ alone, m.Gives settings [f] alone ∧
        alone.conjuncts = bare.conjuncts ++ part) formulas parts ∧
      out.conjuncts.Perm (bare.conjuncts ++ parts.flatten) := by
  obtain ⟨ks, resolved, done⟩ := givesEq.mp given
  obtain ⟨bare, parts, nothing, each, perm⟩ := holdingParts w (resolvedAdmitted resolved) done
  rw [mapMEqOk] at resolved
  refine ⟨bare, parts, givesBare.mpr nothing, (forall₂Through resolved each).imp ?_, perm⟩
  intro f part h
  obtain ⟨k, own, alone, compiled, same⟩ := h
  exact ⟨alone, (givesAlone own).mpr compiled, same⟩

theorem givesUnion (w : WellFormed m) (nonempty : formulas ≠ [])
    (given : m.Gives settings formulas out) {v : Variable} : v ∈ out.symbols ↔
      ∃ f ∈ formulas, ∃ alone, m.Gives settings [f] alone ∧ v ∈ alone.symbols := by
  obtain ⟨ks, resolved, done⟩ := givesEq.mp given
  have admitted := resolvedAdmitted resolved
  rw [mapMEqOk] at resolved
  have several : ks ≠ [] := by
    intro none
    subst none
    exact nonempty (List.forall₂_nil_right_iff.mp resolved)
  rw [holdingUnion w admitted several done]
  constructor
  · intro h
    obtain ⟨k, member, alone, compiled, spoken⟩ := h
    obtain ⟨f, listed, own⟩ := forall₂Right resolved member
    exact ⟨f, listed, alone, (givesAlone own).mpr compiled, spoken⟩
  · intro h
    obtain ⟨f, listed, alone, given, spoken⟩ := h
    obtain ⟨k, member, own⟩ := forall₂Left resolved listed
    exact ⟨k, member, alone, (givesAlone own).mp given, spoken⟩

theorem givesReordered (w : WellFormed m) (nonempty : formulas ≠ []) (perm : others.Perm formulas)
    (first : m.Gives settings formulas out) (second : m.Gives settings others out') :
    out'.conjuncts.Perm out.conjuncts ∧ out'.symbols = out.symbols := by
  constructor
  · obtain ⟨bare, parts, nothing, each, same⟩ := givesParts w first
    obtain ⟨bare', parts', nothing', each', same'⟩ := givesParts w second
    cases givesOnce nothing nothing'
    have parted := forall₂Reordered (fun f part part' h h' => by
      obtain ⟨alone, given, listed⟩ := h
      obtain ⟨alone', given', listed'⟩ := h'
      cases givesOnce given given'
      exact List.append_cancel_left (listed.symm.trans listed')) perm each each'
    exact same'.trans ((parted.flatten.append_left _).trans same.symm)
  · have nonempty' : others ≠ [] := fun none =>
      nonempty (perm.symm.trans (.of_eq none)).eq_nil
    refine SortedSet.ext fun v => ?_
    rw [givesUnion w nonempty' second, givesUnion w nonempty first]
    simp only [perm.mem_iff]

/-- Constraints contribute to a compiled model independently of each other and of their order: the
model compiles when it does with each alone, it then has beside the conjuncts of the bare forest
those that each adds alone, and the variables of all. -/
theorem constraintsIndependent (built : Built m) (nonempty : formulas ≠ []) (settings : Settings) :
    m.Independent settings formulas where
  accepted := by simp only [acceptedEach, List.forall_mem_singleton]
  compiles := givesEach built.wellFormed nonempty
  conjuncts := fun _ given => givesParts built.wellFormed given
  symbols := fun _ given _ => givesUnion built.wellFormed nonempty given
  reordered := fun others perm => by
    have w := built.wellFormed
    have nonempty' : others ≠ [] := fun none =>
      nonempty (perm.symm.trans (.of_eq none)).eq_nil
    refine ⟨by simp only [acceptedEach, perm.mem_iff], ?_, fun _ _ first second =>
      givesReordered w nonempty perm first second⟩
    simp only [givesEach w nonempty', givesEach w nonempty, perm.mem_iff]

end Giving

namespace Example

def rackRules : List Formula := rack.constraints.toList.map Constraint.formula

theorem rackIndependent : Built rack ∧ rackRules ≠ [] ∧
    (∃ out, rack.Gives ⟨.full, .fail⟩ rackRules out) ∧
    rack.Independent ⟨.full, .fail⟩ rackRules := by
  have nonempty : rackRules ≠ [] := by simp [rackRules, rack]
  have compiles : (rack.compile ⟨.full, .fail⟩).toOption.isSome = true := by decide +kernel
  obtain ⟨out, done⟩ := toOptionIsSome.mp compiles
  exact ⟨rackBuilt, nonempty, ⟨out, rack, rackBuilt.constrained, done⟩,
    constraintsIndependent rackBuilt nonempty _⟩

end Example
end ProductLine
