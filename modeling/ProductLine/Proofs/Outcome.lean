import Mathlib.Data.List.Forall2
import ProductLine.Failure

/-!
Results of operations that may fail: when a chain of them, or one for each member of a list, gives
an answer, and which answer.
-/
namespace ProductLine

section Chains
variable {ε α β : Type}

theorem bindEqOk {x : Except ε α} {next : α → Except ε β} {answer : β} :
    x >>= next = .ok answer ↔ ∃ a, x = .ok a ∧ next a = .ok answer := by
  cases x <;> simp [bind, Except.bind]

theorem mapEqOk {x : Except ε α} {g : α → β} {answer : β} :
    g <$> x = .ok answer ↔ ∃ a, x = .ok a ∧ g a = answer := by
  cases x <;> simp [Functor.map, Except.map]

theorem pureEqOk {a answer : α} : (pure a : Except ε α) = .ok answer ↔ a = answer := by
  simp [pure, Except.pure]

theorem toOptionEqSome {x : Except ε α} {a : α} : x.toOption = some a ↔ x = .ok a := by
  cases x <;> simp [Except.toOption]

theorem toOptionIsSome {x : Except ε α} : x.toOption.isSome = true ↔ ∃ a, x = .ok a := by
  cases x <;> simp [Except.toOption]

theorem toOptionAny {x : Except ε α} {p : α → Bool} :
    x.toOption.any p = true ↔ ∃ a, x = .ok a ∧ p a = true := by
  cases x <;> simp [Except.toOption]

theorem mapMEqOk {f : α → Except ε β} {xs : List α} {ys : List β} :
    xs.mapM f = .ok ys ↔ List.Forall₂ (fun x y => f x = .ok y) xs ys := by
  induction xs generalizing ys with
  | nil => rw [List.mapM_nil, pureEqOk, List.forall₂_nil_left_iff, eq_comm]
  | cons x xs ih =>
    rw [List.mapM_cons, bindEqOk, List.forall₂_cons_left_iff]
    constructor
    · rintro ⟨y, head, tail⟩
      obtain ⟨rest, tail, last⟩ := bindEqOk.mp tail
      exact ⟨y, rest, head, ih.mp tail, (pureEqOk.mp last).symm⟩
    · rintro ⟨y, rest, head, tail, rfl⟩
      exact ⟨y, head, bindEqOk.mpr ⟨rest, ih.mpr tail, pureEqOk.mpr rfl⟩⟩

theorem mapMAt {f : α → Except ε β} {xs : List α} {ys : List β} (each : xs.mapM f = .ok ys)
    {i : Nat} {y : β} : ys[i]? = some y ↔ ∃ x, xs[i]? = some x ∧ f x = .ok y := by
  rw [mapMEqOk] at each
  induction each generalizing i with
  | nil => simp
  | cons head tail ih =>
    cases i with
    | zero => simp [head]
    | succ i => simpa using ih

theorem forMEqOk {f : α → Except ε Unit} {xs : List α} :
    xs.forM f = .ok () ↔ ∀ x ∈ xs, f x = .ok () := by
  induction xs with
  | nil => simp [pureEqOk]
  | cons x xs ih =>
    have step : (x :: xs).forM f = f x >>= fun _ => xs.forM f := rfl
    rw [step, bindEqOk, List.forall_mem_cons, ← ih]
    exact ⟨fun ⟨_, first, rest⟩ => ⟨first, rest⟩, fun h => ⟨_, h⟩⟩

theorem mapMExists {f : α → Except ε β} {xs : List α} (each : ∀ x ∈ xs, ∃ y, f x = .ok y) :
    ∃ ys, xs.mapM f = .ok ys := by
  induction xs with
  | nil => exact ⟨[], rfl⟩
  | cons x xs ih =>
    obtain ⟨y, head⟩ := each x (by simp)
    obtain ⟨ys, tail⟩ := ih fun z hz => each z (by simp [hz])
    refine ⟨y :: ys, ?_⟩
    rw [mapMEqOk] at tail ⊢
    exact .cons head tail

theorem mapMEqError {f : α → Except ε β} {xs : List α} {e : ε} :
    xs.mapM f = .error e ↔ ∃ before x after, xs = before ++ x :: after ∧
      (∀ y ∈ before, ∃ b, f y = .ok b) ∧ f x = .error e := by
  induction xs with
  | nil => simp [pure, Except.pure]
  | cons x xs ih =>
    rw [List.mapM_cons]
    cases head : f x with
    | error e' =>
      have stops : (Except.error e' : Except ε β) >>= (fun y => do
          let ys ← xs.mapM f
          pure (y :: ys)) = .error e' := rfl
      rw [stops]
      constructor
      · intro same
        cases same
        exact ⟨[], x, xs, rfl, by simp, head⟩
      · intro h
        obtain ⟨before, y, after, split, passed, failed⟩ := h
        cases before with
        | nil =>
          cases split
          exact congrArg _ (Except.error.inj (head.symm.trans failed))
        | cons z before =>
          cases split
          obtain ⟨b, done⟩ := passed x List.mem_cons_self
          cases head.symm.trans done
    | ok y =>
      have goes : ((Except.ok y : Except ε β) >>= fun y => do
          let ys ← xs.mapM f
          pure (y :: ys)) = .error e ↔ xs.mapM f = .error e := by
        cases xs.mapM f <;> simp [bind, Except.bind, pure, Except.pure]
      rw [goes, ih]
      constructor
      · intro h
        obtain ⟨before, z, after, rfl, passed, failed⟩ := h
        refine ⟨x :: before, z, after, rfl, ?_, failed⟩
        exact List.forall_mem_cons.mpr ⟨⟨y, head⟩, passed⟩
      · intro h
        obtain ⟨before, z, after, split, passed, failed⟩ := h
        cases before with
        | nil =>
          cases split
          cases head.symm.trans failed
        | cons w before =>
          cases split
          exact ⟨before, z, after, rfl, (List.forall_mem_cons.mp passed).2, failed⟩

end Chains

section Failures
variable {ε α β : Type} {bad : ε → Prop}

def Avoids (bad : ε → Prop) (x : Except ε α) : Prop := ∀ e, x = .error e → ¬ bad e

theorem avoidsOk (a : α) : Avoids bad (.ok a) := by
  intro e same
  cases same

theorem avoidsAll {x : Except ε α} : Avoids (fun _ => True) x ↔ ∃ a, x = .ok a := by
  cases x with
  | ok a => exact ⟨fun _ => ⟨a, rfl⟩, fun _ => avoidsOk a⟩
  | error e => exact ⟨fun avoids => absurd trivial (avoids e rfl), fun h => nomatch h⟩

theorem avoidsBind {x : Except ε α} {next : α → Except ε β} (first : Avoids bad x)
    (rest : ∀ a, x = .ok a → Avoids bad (next a)) : Avoids bad (x >>= next) := by
  cases x with
  | ok a => exact rest a rfl
  | error e =>
    intro e' same
    exact first e' (by simpa [bind, Except.bind] using same)

theorem avoidsMap {x : Except ε α} {g : α → β} (first : Avoids bad x) : Avoids bad (g <$> x) := by
  cases x with
  | ok a => exact avoidsOk _
  | error e =>
    intro e' same
    exact first e' (by simpa [Functor.map, Except.map] using same)

theorem avoidsMapM {f : α → Except ε β} {xs : List α} (each : ∀ x ∈ xs, Avoids bad (f x)) :
    Avoids bad (xs.mapM f) := by
  induction xs with
  | nil => exact avoidsOk _
  | cons x xs ih =>
    rw [List.mapM_cons]
    refine avoidsBind (each x (by simp)) fun y _ => avoidsBind ?_ fun ys _ => avoidsOk _
    exact ih fun z inside => each z (List.mem_cons_of_mem _ inside)

theorem avoidsForM {f : α → Except ε Unit} {xs : List α} (each : ∀ x ∈ xs, Avoids bad (f x)) :
    Avoids bad (xs.forM f) := by
  induction xs with
  | nil => exact avoidsOk _
  | cons x xs ih =>
    refine avoidsBind (each x (by simp)) fun _ _ => ?_
    exact ih fun z inside => each z (List.mem_cons_of_mem _ inside)

end Failures

section Relations
variable {ε α β : Type} {kind : ε → Prop} {x y : Except ε α}

/-- The first run agrees with the second, unless it gives up with a failure of the kind. -/
def AgreesUnless (kind : ε → Prop) (x y : Except ε α) : Prop := x = y ∨ ∃ e, x = .error e ∧ kind e

theorem agreesSame (x : Except ε α) : AgreesUnless kind x x := .inl rfl

theorem agreesBind {f g : α → Except ε β} (first : AgreesUnless kind x y)
    (rest : ∀ a, AgreesUnless kind (f a) (g a)) : AgreesUnless kind (x >>= f) (y >>= g) := by
  rcases first with rfl | ⟨e, rfl, failed⟩
  · cases x with
    | ok a => exact rest a
    | error e => exact .inl rfl
  · exact .inr ⟨e, rfl, failed⟩

theorem agreesMap (f : α → β) (first : AgreesUnless kind x y) :
    AgreesUnless kind (f <$> x) (f <$> y) := by
  rcases first with rfl | ⟨e, rfl, failed⟩
  · exact .inl rfl
  · exact .inr ⟨e, rfl, failed⟩

theorem agreesMapM {f g : α → Except ε β} {xs : List α}
    (each : ∀ x ∈ xs, AgreesUnless kind (f x) (g x)) :
    AgreesUnless kind (xs.mapM f) (xs.mapM g) := by
  induction xs with
  | nil => exact agreesSame _
  | cons x xs ih =>
    rw [List.mapM_cons, List.mapM_cons]
    refine agreesBind (each x List.mem_cons_self) fun y => agreesBind ?_ fun ys => agreesSame _
    exact ih fun z inside => each z (List.mem_cons_of_mem _ inside)

theorem agreesAvoids (agrees : AgreesUnless kind x y) (avoids : Avoids kind x) : x = y := by
  rcases agrees with same | ⟨e, failed, bad⟩
  · exact same
  · exact absurd bad (avoids e failed)

end Relations

section Pairs
variable {α β γ : Type} {R : α → β → Prop} {S : β → γ → Prop} {xs : List α} {ys : List β}

theorem mapsEqual {f : α → γ} {g : β → γ} :
    xs.map f = ys.map g ↔ List.Forall₂ (fun x y => f x = g y) xs ys := by
  rw [← List.forall₂_eq_eq_eq, List.forall₂_map_left_iff, List.forall₂_map_right_iff]

theorem forall₂Left (h : List.Forall₂ R xs ys) {x : α} (member : x ∈ xs) : ∃ y ∈ ys, R x y := by
  induction h with
  | nil => simp at member
  | cons head tail ih =>
    rcases List.mem_cons.mp member with rfl | inside
    · exact ⟨_, by simp, head⟩
    · obtain ⟨y, hy, related⟩ := ih inside
      exact ⟨y, List.mem_cons_of_mem _ hy, related⟩

theorem forall₂Right (h : List.Forall₂ R xs ys) {y : β} (member : y ∈ ys) : ∃ x ∈ xs, R x y :=
  forall₂Left h.flip member

theorem forall₂Pairwise {T : α → α → Prop} {U : β → β → Prop} (h : List.Forall₂ R xs ys)
    (sorted : xs.Pairwise T) (each : ∀ {x y x' y'}, R x y → R x' y' → T x x' → U y y') :
    ys.Pairwise U := by
  induction h with
  | nil => exact .nil
  | cons head tail ih =>
    obtain ⟨first, sorted⟩ := List.pairwise_cons.mp sorted
    refine List.pairwise_cons.mpr ⟨fun y inside => ?_, ih sorted⟩
    obtain ⟨x, member, related⟩ := forall₂Right tail inside
    exact each head related (first x member)

theorem forall₂Through {zs : List γ} (first : List.Forall₂ R xs ys)
    (second : List.Forall₂ S ys zs) : List.Forall₂ (fun x z => ∃ y, R x y ∧ S y z) xs zs := by
  induction first generalizing zs with
  | nil =>
    cases second
    exact .nil
  | cons head tail ih =>
    cases second with
    | cons head' tail' => exact .cons ⟨_, head, head'⟩ (ih tail')

theorem forall₂FlatMap {below : α → List β} (each : ∀ x ∈ xs, ∃ y, below x = [y] ∧ R x y) :
    List.Forall₂ R xs (xs.flatMap below) := by
  induction xs with
  | nil => exact .nil
  | cons x xs ih =>
    obtain ⟨y, only, related⟩ := each x List.mem_cons_self
    rw [List.flatMap_cons, only]
    exact .cons related (ih fun z inside => each z (List.mem_cons_of_mem _ inside))

theorem forall₂FilterMap {pick : α → Option β}
    (each : List.Forall₂ (fun x y => pick x = some y) xs ys) : xs.filterMap pick = ys := by
  induction each with
  | nil => rfl
  | cons head _ ih => rw [List.filterMap_cons_some head, ih]

theorem forall₂Sublist {pick : α → Option β} (h : List.Forall₂ R xs ys)
    (each : ∀ x y z, R x y → pick x = some z → z = y) : (xs.filterMap pick).Sublist ys := by
  induction h with
  | nil => exact .refl _
  | @cons x y xs ys head _ ih =>
    cases picked : pick x with
    | none =>
      rw [List.filterMap_cons_none picked]
      exact ih.cons y
    | some z =>
      rw [List.filterMap_cons_some picked, each x y z head picked]
      exact ih.cons_cons y

theorem forall₂Flatten {parts : α → List β} {yss : List (List γ)}
    (each : List.Forall₂ (fun x ys => List.Forall₂ S (parts x) ys) xs yss) :
    List.Forall₂ S (xs.flatMap parts) yss.flatten := by
  rw [List.flatMap_def]
  exact List.rel_flatten (List.forall₂_map_left_iff.mpr each)

end Pairs

end ProductLine
