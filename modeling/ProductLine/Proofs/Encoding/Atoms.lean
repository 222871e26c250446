import ProductLine.Proofs.Copy.Presence
import ProductLine.Proofs.Encoding.Unrolled
import ProductLine.Proofs.Formula.Atoms

/-!
The atoms of an encoding's conjuncts: each is the test of an occurrence that the encoding lists.
-/
namespace ProductLine

theorem Occurrence.termAtoms (o : Occurrence) : o.term.atoms = [o.term] := o.symbol.selectedAtoms

section Parts
variable {s : Spread} {parent f g : Formula} {p : Placed} {suffix : Option String} {t : Tree}

theorem Spread.memTermAtoms : g ∈ s.term.atoms ↔ ∃ o ∈ s.occurrences, o.term = g := by
  cases s with
  | single o => simp [term, occurrences, Occurrence.termAtoms, eq_comm]
  | clones os =>
    rw [term, Formula.atomsCompound rfl]
    simp [Formula.operands, List.flatMap_map, occurrences, Occurrence.termAtoms, eq_comm]

theorem Formula.memImpliesAtoms {f h : Formula} :
    g ∈ (implies f h).atoms ↔ g ∈ f.atoms ∨ g ∈ h.atoms := by
  rw [atomsCompound rfl]
  simp [operands]

theorem encodeGroupsAtoms {groups : List GroupKind} {members : List GroupMember}
    (listed : f ∈ encodeGroups parent groups members) (part : g ∈ f.atoms) :
    g ∈ parent.atoms ∨ ∃ c ∈ members, g ∈ c.term.atoms := by
  rcases memEncodeGroups.mp listed with ⟨c, inside, -, rfl⟩ | ⟨i, kind, -, -, encoded⟩
  · exact (Formula.memImpliesAtoms.mp part).imp_right fun own => ⟨c, inside, own⟩
  · obtain ⟨rule, -, rfl⟩ := Option.map_eq_some_iff.mp encoded
    rcases Formula.memImpliesAtoms.mp part with own | below
    · exact .inl own
    · rw [Formula.atomsCompound rfl] at below
      obtain ⟨term, member, deeper⟩ := List.mem_flatMap.mp below
      obtain ⟨c, inside, rfl⟩ := List.mem_map.mp member
      exact .inr ⟨c, (List.mem_filter.mp inside).1, deeper⟩

theorem Placed.conditionsAtoms (listed : f ∈ p.conditions parent suffix) (part : g ∈ f.atoms) :
    g ∈ parent.atoms ∨ ∃ o ∈ (p.spread suffix).occurrences, o.term = g := by
  rcases List.mem_append.mp listed with condition | bound
  · obtain ⟨step, taken, condition⟩ := List.mem_flatMap.mp condition
    have own := Spread.stepFrom taken
    rcases memConditions.mp condition with rfl | ⟨q, before, rfl⟩
    · rcases Formula.memImpliesAtoms.mp part with here | above
      · rw [Occurrence.termAtoms, List.mem_singleton] at here
        exact .inr ⟨_, own, here.symm⟩
      · exact .inl above
    · rcases Formula.memImpliesAtoms.mp part with here | there
      · rw [Occurrence.termAtoms, List.mem_singleton] at here
        exact .inr ⟨_, own, here.symm⟩
      · rw [Occurrence.termAtoms, List.mem_singleton] at there
        exact .inr ⟨_, Spread.stepBefore taken before, there.symm⟩
  · obtain ⟨os, spread, rfl⟩ := Spread.boundForm bound
    rw [spread]
    rcases Formula.memImpliesAtoms.mp part with above | below
    · exact .inl above
    · rw [Formula.atomsCompound rfl] at below
      simp only [Formula.operands, List.flatMap_map, List.mem_flatMap, Occurrence.termAtoms,
        List.mem_singleton] at below
      obtain ⟨o, inside, rfl⟩ := below
      exact .inr ⟨o, inside, rfl⟩

theorem Tree.conjunctsAtoms (listed : f ∈ t.conjuncts parent suffix) (part : g ∈ f.atoms) :
    g ∈ parent.atoms ∨ ∃ c ∈ t.children, ∃ o ∈ (c.place.spread suffix).occurrences,
      o.term = g := by
  rcases List.mem_append.mp listed with group | condition
  · rcases encodeGroupsAtoms group part with own | ⟨child, inside, below⟩
    · exact .inl own
    · obtain ⟨q, place, rfl⟩ := List.mem_map.mp inside
      obtain ⟨c, child, rfl⟩ := List.mem_map.mp place
      exact .inr ⟨c, child, Spread.memTermAtoms.mp below⟩
  · obtain ⟨c, child, condition⟩ := List.mem_flatMap.mp condition
    exact (Placed.conditionsAtoms condition part).imp_right fun below => ⟨c, child, below⟩

end Parts

theorem Unrolling.memSymbols {trees : List Tree} {v : Variable} :
    v ∈ (ofForest trees).symbols ↔ ∃ e ∈ entries trees, e.occurrence.symbol = v := by
  have own : ∀ e : Entry, e.toInstance.term.ownSymbols = [e.occurrence.symbol] :=
    fun e => e.occurrence.symbol.selectedSymbols
  rw [symbols, SortedSet.memOfList, (rosterGains trees).instances]
  simp [Roster.empty, own, eq_comm]

theorem Rostered.instanceSpoken {m : FeatureModel} {trees : List Tree} {r : Roster} {x : Instance}
    {i : Nat} {v : Variable} (h : Rostered m trees r) (stored : r.instances[i]? = some x)
    (spoken : v ∈ x.term.symbols) : v ∈ (Unrolling.ofForest trees).symbols := by
  obtain ⟨e, found, rfl⟩ := h.instanceEntry stored
  obtain ⟨g, part, own⟩ := Formula.memSymbols.mp spoken
  rw [show e.toInstance.term = e.occurrence.term from rfl, Occurrence.termAtoms,
    List.mem_singleton] at part
  rw [part, Occurrence.term, Variable.selectedSymbols, List.mem_singleton] at own
  exact Unrolling.memSymbols.mpr ⟨e, List.mem_of_getElem? found, own.symm⟩

theorem Unrolling.conjunctsAtoms {trees : List Tree} {f g : Formula}
    (listed : f ∈ (ofForest trees).conjuncts) (part : g ∈ f.atoms) :
    ∃ e ∈ entries trees, e.occurrence.term = g := by
  rcases memConjuncts.mp listed with ⟨t, member, root⟩ | ⟨e, inside, own⟩
  · obtain ⟨-, rfl⟩ := Placed.memRootConjuncts.mp root
    rw [Occurrence.termAtoms, List.mem_singleton] at part
    obtain ⟨j, e, found, -, seat⟩ := topEntry member
    refine ⟨e, List.mem_of_getElem? found, ?_⟩
    rw [part, show e.occurrence = t.occurrence from congrArg Prod.snd seat]
    rfl
  · rcases Tree.conjunctsAtoms own part with here | ⟨c, child, o, spread, rfl⟩
    · rw [Occurrence.termAtoms, List.mem_singleton] at here
      exact ⟨e, inside, here.symm⟩
    · obtain ⟨i, found⟩ := List.mem_iff_getElem?.mp inside
      obtain ⟨j, e', found', -, -, rfl⟩ := childEntry found child spread
      exact ⟨e', List.mem_of_getElem? found', rfl⟩

end ProductLine
