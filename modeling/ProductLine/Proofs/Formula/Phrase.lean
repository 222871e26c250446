import ProductLine.Proofs.Formula.Words

/-!
How the text of a formula is put together: words for names and constants, exclamation marks, and
operands in brackets with separators between them. Such a phrase can be read back from its text,
whatever follows the text in a larger phrase.
-/
namespace ProductLine

inductive Phrase where
  | leaf (l : Leaf)
  | negation (operand : Phrase)
  | bracket (operator : Operator) (operands : List Phrase)

namespace Phrase

mutual

def text : Phrase → List Char
  | leaf l => l.render.toList
  | negation p => '!' :: p.text
  | bracket o ps =>
    o.head.toList ++ '(' :: (o.separator.toList.intercalate (textAll ps) ++ [')'])

def textAll : List Phrase → List (List Char)
  | [] => []
  | p :: ps => p.text :: textAll ps

end

theorem textAllMap (ps : List Phrase) : textAll ps = ps.map text := by
  induction ps with
  | nil => rfl
  | cons p ps ih => simp [textAll, ih]

inductive Legible : Phrase → Prop
  | leaf {l : Leaf} (legible : l.Legible) : Legible (.leaf l)
  | negation {p : Phrase} (legible : p.Legible) : Legible (.negation p)
  | bracket {o : Operator} {ps : List Phrase} (takes : o.Takes ps.length)
      (legible : ∀ p ∈ ps, Legible p) : Legible (.bracket o ps)

def lead : Phrase → List Char
  | leaf l => l.render.toList
  | negation _ => []
  | bracket o _ => o.head.toList

def body : Phrase → List Char
  | leaf _ => []
  | negation p => '!' :: p.text
  | bracket o ps => '(' :: (o.separator.toList.intercalate (ps.map text) ++ [')'])

/-- Only this phrase has its text, and in what is written on it can be seen where the text ends. -/
def ReadOnce (p : Phrase) : Prop := ∀ {q : Phrase} {rest rest' : List Char}, q.Legible →
  Stops rest → Stops rest' → p.text ++ rest = q.text ++ rest' → p = q ∧ rest = rest'

variable {p q : Phrase} {ps qs : List Phrase} {o o' : Operator} {rest rest' : List Char}

theorem pairText (headless : o.head = "") : (bracket o [p, q]).text =
    '(' :: (p.text ++ o.separator.toList ++ q.text ++ [')']) := by
  simp [text, textAll, headless]

theorem textParts (p : Phrase) : p.text = p.lead ++ p.body := by
  cases p <;> simp [text, lead, body, textAllMap]

theorem leadWord (legible : p.Legible) : p.lead.all inWord = true := by
  cases legible with
  | leaf legible => exact Leaf.unbroken legible
  | negation => rfl
  | bracket => exact Operator.headUnbroken _

theorem bodyEnds (stops : Stops rest) : ∀ c ∈ (p.body ++ rest).head?, inWord c = false := by
  cases p with
  | leaf => exact stops.ends
  | negation | bracket => simp [body, inWord]

theorem partsOnce (legible : p.Legible) (legible' : q.Legible) (stops : Stops rest)
    (stops' : Stops rest') (same : p.text ++ rest = q.text ++ rest') :
    p.lead = q.lead ∧ p.body ++ rest = q.body ++ rest' := by
  rw [textParts, textParts, List.append_assoc, List.append_assoc] at same
  exact stretchOnce (leadWord legible) (leadWord legible') (bodyEnds stops) (bodyEnds stops') same

theorem neverClosing (legible : p.Legible) : p.text ++ rest ≠ ')' :: rest' := by
  intro same
  rw [textParts, List.append_assoc] at same
  cases legible with
  | @leaf l legible =>
    obtain ⟨c, word, split⟩ := List.exists_cons_of_ne_nil (Leaf.present legible)
    have solid := List.all_eq_true.mp (Leaf.unbroken legible) c (split ▸ List.mem_cons_self)
    rw [lead, split] at same
    rw [List.head_eq_of_cons_eq same] at solid
    exact absurd solid (by decide)
  | negation => simp [lead, body] at same
  | @bracket o =>
    obtain ⟨-, bodies⟩ := stretchOnce (v := []) (Operator.headUnbroken o) rfl
      (by simp [body, inWord]) (by simp [inWord]) same
    simp [body] at bodies

theorem separatorStarts (o : Operator) :
    ∃ first rest, o.separator.toList = first :: rest ∧ (first = ' ' ∨ first = ',') := by
  obtain ⟨first, body, shape, listed, -⟩ := o.separatorShape
  exact ⟨first, body ++ [' '], shape, by simpa using listed⟩

theorem tailStops : Stops (ps.flatMap (o.separator.toList ++ ·.text) ++ ')' :: rest) := by
  cases ps with
  | nil => simp [Stops]
  | cons p ps =>
    obtain ⟨first, body, shape, listed⟩ := separatorStarts o
    rcases listed with rfl | rfl <;> simp [Stops, shape]

theorem separatorOnce
    (same : o.separator.toList ++ rest = o'.separator.toList ++ rest') :
    o.separator = o'.separator ∧ rest = rest' := by
  obtain ⟨first, body, shape, -, solid⟩ := o.separatorShape
  obtain ⟨first', body', shape', -, solid'⟩ := o'.separatorShape
  rw [shape, shape'] at same
  have firsts : first = first' := List.head_eq_of_cons_eq same
  have others : body ++ ' ' :: rest = body' ++ ' ' :: rest' := by
    simpa using List.tail_eq_of_cons_eq same
  obtain ⟨bodies, rests⟩ := separatedOnce solid solid' others
  refine ⟨String.toList_injective ?_, rests⟩
  rw [shape, shape', firsts, bodies]

theorem separatorNeverClosing : o.separator.toList ++ rest ≠ ')' :: rest' := by
  obtain ⟨first, body, shape, listed⟩ := separatorStarts o
  rcases listed with rfl | rfl <;> simp [shape]

theorem tailOnce (once : ∀ p ∈ ps, p.ReadOnce) (legible : ∀ q ∈ qs, q.Legible)
    (same : ps.flatMap (o.separator.toList ++ ·.text) ++ ')' :: rest =
      qs.flatMap (o'.separator.toList ++ ·.text) ++ ')' :: rest') :
    ps = qs ∧ rest = rest' ∧ (ps ≠ [] → o.separator = o'.separator) := by
  induction ps generalizing qs with
  | nil =>
    cases qs with
    | nil => exact ⟨rfl, List.tail_eq_of_cons_eq same, nofun⟩
    | cons q qs =>
      simp only [List.flatMap_cons, List.append_assoc] at same
      exact absurd same.symm separatorNeverClosing
  | cons p ps ih =>
    cases qs with
    | nil =>
      simp only [List.flatMap_cons, List.append_assoc] at same
      exact absurd same separatorNeverClosing
    | cons q qs =>
      simp only [List.flatMap_cons, List.append_assoc] at same
      obtain ⟨separators, operands⟩ := separatorOnce same
      obtain ⟨rfl, tails⟩ := once p List.mem_cons_self (legible q List.mem_cons_self)
        tailStops tailStops operands
      obtain ⟨rfl, ends, -⟩ := ih (fun p inside => once p (List.mem_cons_of_mem _ inside))
        (fun q inside => legible q (List.mem_cons_of_mem _ inside)) tails
      exact ⟨rfl, ends, fun _ => separators⟩

theorem intercalateCons {α : Type} (separator : List α) (xs : List α) (rest : List (List α)) :
    separator.intercalate (xs :: rest) = xs ++ rest.flatMap (separator ++ ·) := by
  induction rest generalizing xs with
  | nil => simp
  | cons ys rest ih => rw [List.intercalate_cons_cons, ih, List.flatMap_cons]; simp

theorem operandsText (o : Operator) (p : Phrase) (ps : List Phrase) :
    o.separator.toList.intercalate ((p :: ps).map text) =
      p.text ++ ps.flatMap (o.separator.toList ++ ·.text) := by
  rw [List.map_cons, intercalateCons, List.flatMap_map]

theorem operandsOnce (once : ∀ p ∈ ps, p.ReadOnce) (legible : ∀ p ∈ ps, p.Legible)
    (legible' : ∀ q ∈ qs, q.Legible)
    (same : o.separator.toList.intercalate (ps.map text) ++ ')' :: rest =
      o'.separator.toList.intercalate (qs.map text) ++ ')' :: rest') :
    ps = qs ∧ rest = rest' ∧ (2 ≤ ps.length → o.separator = o'.separator) := by
  cases ps with
  | nil =>
    cases qs with
    | nil => exact ⟨rfl, List.tail_eq_of_cons_eq same, by simp⟩
    | cons q qs =>
      rw [operandsText, List.append_assoc] at same
      exact absurd same.symm (neverClosing (legible' q List.mem_cons_self))
  | cons p ps =>
    cases qs with
    | nil =>
      rw [operandsText, List.append_assoc] at same
      exact absurd same (neverClosing (legible p List.mem_cons_self))
    | cons q qs =>
      -- No separator stands before the first operand, so only the other ones are a tail.
      rw [operandsText, operandsText, List.append_assoc, List.append_assoc] at same
      obtain ⟨rfl, tails⟩ := once p List.mem_cons_self (legible' q List.mem_cons_self)
        tailStops tailStops same
      obtain ⟨rfl, ends, separators⟩ := tailOnce
        (fun p inside => once p (List.mem_cons_of_mem _ inside))
        (fun q inside => legible' q (List.mem_cons_of_mem _ inside)) tails
      refine ⟨rfl, ends, fun several => separators ?_⟩
      rintro rfl
      exact absurd several (by simp)

/-- The first word of the text and the character after it tell the kind of phrase; induction on the
phrase tells the operands. -/
theorem readOnce (legible : p.Legible) : p.ReadOnce := by
  induction legible with
  | @leaf l legible =>
    intro q rest rest' legible' stops stops' same
    obtain ⟨leads, bodies⟩ := partsOnce (.leaf legible) legible' stops stops' same
    cases legible' with
    | leaf legible' =>
      have renders := String.toList_injective leads
      exact ⟨congrArg Phrase.leaf (Leaf.once legible legible' renders), bodies⟩
    | negation => exact absurd bodies (stops.apart (by decide))
    | bracket => exact absurd bodies (stops.apart (by decide))
  | @negation p legible ih =>
    intro q rest rest' legible' stops stops' same
    obtain ⟨-, bodies⟩ := partsOnce (.negation legible) legible' stops stops' same
    cases legible' with
    | leaf => exact absurd bodies.symm (stops'.apart (by decide))
    | negation legible' =>
      obtain ⟨rfl, ends⟩ := ih legible' stops stops' (List.tail_eq_of_cons_eq bodies)
      exact ⟨rfl, ends⟩
    | bracket => exact absurd (List.head_eq_of_cons_eq bodies) (by decide)
  | @bracket o ps takes legible ih =>
    intro q rest rest' legible' stops stops' same
    obtain ⟨leads, bodies⟩ := partsOnce (.bracket takes legible) legible' stops stops' same
    cases legible' with
    | leaf => exact absurd bodies.symm (stops'.apart (by decide))
    | negation => exact absurd (List.head_eq_of_cons_eq bodies) (by decide)
    | bracket takes' legible' =>
      simp only [body, List.cons_append, List.cons.injEq, true_and, List.append_assoc,
        List.nil_append] at bodies
      obtain ⟨rfl, ends, separators⟩ := operandsOnce ih legible legible' bodies
      have heads := String.toList_injective leads
      exact ⟨by rw [Operator.once takes takes' heads separators], ends⟩

theorem textInjective (legible : p.Legible) (legible' : q.Legible) (same : p.text = q.text) :
    p = q := by
  have texts : p.text ++ [] = q.text ++ [] := by rw [same]
  exact (readOnce legible legible' Stops.nil Stops.nil texts).1

end Phrase

end ProductLine
