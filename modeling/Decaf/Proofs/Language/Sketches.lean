import Decaf.Language.Outline
import Mathlib.Data.List.Forall2

/-!
# Sketches

An outline is the text of a tree whose leaves are words and quoted lexemes. A text is the text
of one such tree at most: a word ends at the first delimiter, a quoted lexeme at the first quote
that no backslash escapes, and a node at the parenthesis that closes its parts. What is quoted
may look like an outline itself.
-/

namespace Decaf

/-- Two lists are cut at the same place if each is cut where a class of entries ends first. -/
theorem append_inj_of_class {α : Type} {P : α → Prop} {xs ys s t : List α}
    (left : ∀ x ∈ xs, P x) (right : ∀ y ∈ ys, P y) (afterLeft : ∀ x ∈ s.head?, ¬ P x)
    (afterRight : ∀ y ∈ t.head?, ¬ P y) (same : xs ++ s = ys ++ t) : xs = ys ∧ s = t := by
  induction xs generalizing ys with
  | nil =>
    cases ys with
    | nil => exact ⟨rfl, same⟩
    | cons y ys =>
      rw [List.nil_append, List.cons_append] at same
      subst same
      exact absurd (right y (by simp)) (afterLeft y (by simp))
  | cons x xs ih =>
    cases ys with
    | nil =>
      rw [List.nil_append, List.cons_append] at same
      subst same
      exact absurd (left x (by simp)) (afterRight x (by simp))
    | cons y ys =>
      obtain ⟨rfl, rest⟩ := List.cons.inj same
      obtain ⟨rfl, after⟩ := ih (fun z hz => left z (by simp [hz]))
        (fun z hz => right z (by simp [hz])) rest
      exact ⟨rfl, after⟩

namespace Outline

def delimiters : List Char :=
  ['(', ')', ',', '"']

/-- A text that is not empty and has no delimiter in it, such as an identifier or a numeral. -/
def Word (text : String) : Prop :=
  text.toList ≠ [] ∧ ∀ c ∈ text.toList, c ∉ delimiters

-- The characters of the text are tried one by one, not all characters that there are.
instance (text : String) : Decidable (Word text) :=
  @instDecidableAnd _ _ inferInstance (List.decidableBAll _ _)

/-- Identifiers are words. -/
theorem Word.of_identifier {name : String} (some : name.toList ≠ [])
    (each : name.toList.all fun c => c.isAlphanum || c == '_') : Word name := by
  refine ⟨some, fun c mem delimiter => ?_⟩
  have apart : delimiters.all fun d => !(d.isAlphanum || d == '_') := by decide
  have inside := List.all_eq_true.1 each c mem
  have outside := List.all_eq_true.1 apart c delimiter
  rw [inside] at outside
  cases outside

theorem Word.append_inj {a b : String} {s t : List Char} (ha : Word a) (hb : Word b)
    (hs : ∀ c ∈ s.head?, c ∈ delimiters) (ht : ∀ c ∈ t.head?, c ∈ delimiters)
    (same : a.toList ++ s = b.toList ++ t) : a = b ∧ s = t := by
  obtain ⟨word, rest⟩ := append_inj_of_class ha.2 hb.2 (fun c mem => not_not.2 (hs c mem))
    (fun c mem => not_not.2 (ht c mem)) same
  exact ⟨String.toList_inj.1 word, rest⟩

theorem Word.head_ne_quote {text : String} (h : Word text) {s t : List Char} :
    text.toList ++ s ≠ '"' :: t := by
  intro same
  obtain ⟨c, cs, shape⟩ := List.exists_cons_of_ne_nil h.1
  rw [shape, List.cons_append] at same
  obtain ⟨rfl, -⟩ := List.cons.inj same
  exact h.2 '"' (by simp [shape]) (by decide)

end Outline

namespace Quoted

/-- What may stand between quotes: characters other than the quote and the backslash, and
backslashes each with the character after it. -/
inductive Items : List Char → Prop where
  | nil : Items []
  | plain {c : Char} {rest : List Char} (noQuote : c ≠ '"') (noBackslash : c ≠ '\\') :
      Items rest → Items (c :: rest)
  | escape (c : Char) {rest : List Char} : Items rest → Items ('\\' :: c :: rest)

theorem Items.append_inj {a b s t : List Char} (ha : Items a) (hb : Items b)
    (same : a ++ '"' :: s = b ++ '"' :: t) : a = b ∧ s = t := by
  induction ha generalizing b with
  | nil =>
    cases hb with
    | nil => exact ⟨rfl, (List.cons.inj same).2⟩
    | plain noQuote => exact absurd (List.cons.inj same).1.symm noQuote
    | escape => exact absurd (List.cons.inj same).1 (by decide)
  | plain noQuote noBackslash _ ih =>
    cases hb with
    | nil => exact absurd (List.cons.inj same).1 noQuote
    | plain _ _ rest =>
      obtain ⟨rfl, inside⟩ := List.cons.inj same
      obtain ⟨rfl, after⟩ := ih rest inside
      exact ⟨rfl, after⟩
    | escape => exact absurd (List.cons.inj same).1 noBackslash
  | escape c _ ih =>
    cases hb with
    | nil => exact absurd (List.cons.inj same).1 (by decide)
    | plain _ noBackslash => exact absurd (List.cons.inj same).1.symm noBackslash
    | escape _ rest =>
      obtain ⟨rfl, inside⟩ := List.cons.inj (List.cons.inj same).2
      obtain ⟨rfl, after⟩ := ih rest inside
      exact ⟨rfl, after⟩

/-- A lexeme in quotes that ends where its reader stops. -/
def Closed (lexeme : String) : Prop :=
  ∃ items, Items items ∧ lexeme.toList = '"' :: (items ++ ['"'])

theorem Closed.append_inj {a b : String} {s t : List Char} (ha : Closed a) (hb : Closed b)
    (same : a.toList ++ s = b.toList ++ t) : a = b ∧ s = t := by
  obtain ⟨items, ha, a_eq⟩ := ha
  obtain ⟨items', hb, b_eq⟩ := hb
  have inside : items ++ '"' :: s = items' ++ '"' :: t := by simpa [a_eq, b_eq] using same
  obtain ⟨rfl, after⟩ := ha.append_inj hb inside
  exact ⟨String.toList_inj.1 (a_eq.trans b_eq.symm), after⟩

end Quoted

open Outline

/-- What an outline may show without taking it apart. -/
inductive Lexeme (text : String) : Prop where
  | word (h : Word text)
  | quoted (h : Quoted.Closed text)

theorem Lexeme.append_inj {a b : String} {s t : List Char} (ha : Lexeme a) (hb : Lexeme b)
    (hs : ∀ c ∈ s.head?, c ∈ delimiters) (ht : ∀ c ∈ t.head?, c ∈ delimiters)
    (same : a.toList ++ s = b.toList ++ t) : a = b ∧ s = t := by
  cases ha with
  | word ha =>
    cases hb with
    | word hb => exact ha.append_inj hb hs ht same
    | quoted hb =>
      obtain ⟨_, -, shape⟩ := hb
      exact absurd (by rw [same, shape, List.cons_append]) ha.head_ne_quote
  | quoted ha =>
    cases hb with
    | word hb =>
      obtain ⟨_, -, shape⟩ := ha
      exact absurd (by rw [← same, shape, List.cons_append]) hb.head_ne_quote
    | quoted hb => exact ha.append_inj hb same

inductive Sketch where
  | leaf (text : String)
  | node (kind : String) (parts : List Sketch)

namespace Sketch

mutual

def text : Sketch → String
  | leaf text => text
  | node kind parts => Outline.node kind (texts parts)

def texts : List Sketch → List String
  | [] => []
  | p :: ps => p.text :: texts ps

end

theorem texts_append (ps qs : List Sketch) : texts (ps ++ qs) = texts ps ++ texts qs := by
  induction ps with
  | nil => rfl
  | cons p ps ih => rw [List.cons_append, texts, texts, ih, List.cons_append]

theorem texts_ne_nil {ps : List Sketch} (some : ps ≠ []) : texts ps ≠ [] := by
  cases ps with
  | nil => exact absurd rfl some
  | cons p ps => exact List.cons_ne_nil _ _

/-- Parts that follow a first one, each behind its comma. -/
def following : List Sketch → List Char
  | [] => []
  | p :: ps => ',' :: (p.text.toList ++ following ps)

theorem toList_joined (p : Sketch) (ps : List Sketch) :
    (",".intercalate (texts (p :: ps))).toList = p.text.toList ++ following ps := by
  induction ps generalizing p with
  | nil => simp [texts, following]
  | cons q ps ih =>
    have rest := ih q
    simp only [texts] at rest
    simp only [texts, following, String.intercalate_cons_cons, String.toList_append, rest]
    simp

theorem toList_node (kind : String) (p : Sketch) (ps : List Sketch) :
    (node kind (p :: ps)).text.toList =
      kind.toList ++ '(' :: (p.text.toList ++ (following ps ++ [')'])) := by
  simp only [text, Outline.node, String.toList_append, toList_joined]
  simp

/-- The leaves are lexemes, the kinds are words, and no node is without parts. -/
inductive Valid : Sketch → Prop where
  | leaf {text : String} : Lexeme text → Valid (leaf text)
  | node {kind : String} {p : Sketch} {ps : List Sketch} : Word kind → Valid p →
      (∀ q ∈ ps, Valid q) → Valid (node kind (p :: ps))

/-- What may come after a part: a further part, the end of the node, or nothing. -/
def Ends (rest : List Char) : Prop :=
  ∀ c ∈ rest.head?, c = ',' ∨ c = ')'

/-- What may come after the last part. -/
def Stops (rest : List Char) : Prop :=
  ∀ c ∈ rest.head?, c = ')'

theorem Ends.delimited {rest : List Char} (h : Ends rest) : ∀ c ∈ rest.head?, c ∈ delimiters := by
  intro c mem
  rcases h c mem with rfl | rfl <;> decide

theorem Stops.ends_following {rest : List Char} (h : Stops rest) (ps : List Sketch) :
    Ends (following ps ++ rest) := by
  intro c mem
  cases ps with
  | nil => exact .inr (h c mem)
  | cons p ps => exact .inl (Option.mem_some_iff.1 mem).symm

theorem stops_closing (rest : List Char) : Stops (')' :: rest) := by
  intro c mem
  exact (Option.mem_some_iff.1 mem).symm

theorem leaf_ne_node {lexeme kind : String} {rest parts : List Char} (leaf : Lexeme lexeme)
    (node : Word kind) (ends : Ends rest) :
    lexeme.toList ++ rest ≠ kind.toList ++ '(' :: parts := by
  intro same
  cases leaf with
  | word word =>
    obtain ⟨-, rfl⟩ := word.append_inj node ends.delimited (by simp [delimiters]) same
    exact absurd (ends '(' rfl) (by decide)
  | quoted quoted =>
    obtain ⟨_, -, shape⟩ := quoted
    exact absurd (by rw [← same, shape, List.cons_append]) node.head_ne_quote

mutual

/-- A valid sketch is determined by any text that it starts. -/
theorem text_append_inj : ∀ {a b : Sketch} {s t : List Char}, a.Valid → b.Valid → Ends s → Ends t →
    a.text.toList ++ s = b.text.toList ++ t → a = b ∧ s = t
  | leaf x, leaf y, s, t, .leaf ha, .leaf hb, hs, ht, same => by
    obtain ⟨rfl, rest⟩ := ha.append_inj hb hs.delimited ht.delimited same
    exact ⟨rfl, rest⟩
  | leaf x, node kind (q :: qs), s, t, .leaf ha, .node word _ _, hs, _, same => by
    rw [toList_node, List.append_assoc] at same
    exact absurd same (leaf_ne_node ha word hs)
  | node kind (p :: ps), leaf y, s, t, .node word _ _, .leaf hb, _, ht, same => by
    rw [toList_node, List.append_assoc] at same
    exact absurd same.symm (leaf_ne_node hb word ht)
  | node kind (p :: ps), node kind' (q :: qs), s, t, .node word first others,
      .node word' first' others', hs, ht, same => by
    simp only [toList_node, List.append_assoc, List.cons_append, List.nil_append] at same
    obtain ⟨rfl, parts⟩ := word.append_inj word' (by simp [delimiters]) (by simp [delimiters]) same
    obtain ⟨rfl, rest⟩ := text_append_inj first first' ((stops_closing s).ends_following ps)
      ((stops_closing t).ends_following qs) (List.cons.inj parts).2
    obtain ⟨rfl, closing⟩ := following_append_inj others others' (stops_closing s)
      (stops_closing t) rest
    exact ⟨rfl, (List.cons.inj closing).2⟩

theorem following_append_inj : ∀ {ps qs : List Sketch} {s t : List Char}, (∀ p ∈ ps, p.Valid) →
    (∀ q ∈ qs, q.Valid) → Stops s → Stops t → following ps ++ s = following qs ++ t →
    ps = qs ∧ s = t
  | [], [], _, _, _, _, _, _, same => ⟨rfl, same⟩
  | [], q :: qs, s, t, _, _, hs, _, same => by
    have comma := hs ',' (by rw [show s = _ from same]; rfl)
    exact absurd comma (by decide)
  | p :: ps, [], s, t, _, _, _, ht, same => by
    have comma := ht ',' (by rw [show t = _ from same.symm]; rfl)
    exact absurd comma (by decide)
  | p :: ps, q :: qs, s, t, hp, hq, hs, ht, same => by
    simp only [following, List.cons_append, List.append_assoc] at same
    obtain ⟨rfl, rest⟩ := text_append_inj (hp p (by simp)) (hq q (by simp)) (hs.ends_following ps)
      (ht.ends_following qs) (List.cons.inj same).2
    obtain ⟨rfl, after⟩ := following_append_inj (fun r hr => hp r (by simp [hr]))
      (fun r hr => hq r (by simp [hr])) hs ht rest
    exact ⟨rfl, after⟩

end

/-- A text that shows some valid parts, one after the other. -/
structure Reads (text : String) (parts : List Sketch) : Prop where
  nonempty : parts ≠ []
  valid : ∀ p ∈ parts, p.Valid
  text_eq : text = ",".intercalate (texts parts)

theorem Reads.unique {text : String} {ps qs : List Sketch} (h : Reads text ps)
    (h' : Reads text qs) : ps = qs := by
  obtain ⟨nonempty, valid, rfl⟩ := h
  obtain ⟨nonempty', valid', same⟩ := h'
  obtain ⟨p, ps, rfl⟩ := List.exists_cons_of_ne_nil nonempty
  obtain ⟨q, qs, rfl⟩ := List.exists_cons_of_ne_nil nonempty'
  have stops : Stops [] := nofun
  have chars := congrArg String.toList same
  rw [toList_joined, toList_joined, ← List.append_nil (following ps),
    ← List.append_nil (following qs)] at chars
  obtain ⟨rfl, rest⟩ := text_append_inj (valid p (by simp)) (valid' q (by simp))
    (stops.ends_following ps) (stops.ends_following qs) chars
  obtain ⟨rfl, -⟩ := following_append_inj (fun r hr => valid r (by simp [hr]))
    (fun r hr => valid' r (by simp [hr])) stops stops rest
  rfl

theorem Reads.leaf {text : String} (h : Lexeme text) : Reads text [.leaf text] where
  nonempty := List.cons_ne_nil _ _
  valid := by simpa using Valid.leaf h
  text_eq := by simp [texts, Sketch.text]

theorem Reads.word {text : String} (h : Word text) : Reads text [.leaf text] :=
  .leaf (.word h)

theorem Reads.none : Reads "None" [.leaf "None"] :=
  .word (by decide)

/-- Texts behind each other read as their parts behind each other. -/
theorem reads_intercalate {texts : List String} {groups : List (List Sketch)}
    (some : texts ≠ []) (each : List.Forall₂ Reads texts groups) :
    Reads (",".intercalate texts) groups.flatten := by
  induction each with
  | nil => exact absurd rfl some
  | @cons text group texts groups first others ih =>
    cases others with
    | nil => simpa using first
    | cons second others =>
      obtain ⟨more, valid, text_eq⟩ := ih (List.cons_ne_nil _ _)
      refine ⟨by simp [first.nonempty], ?_, ?_⟩
      · rw [List.flatten_cons]
        exact List.forall_mem_append.2 ⟨first.valid, valid⟩
      · rw [List.flatten_cons, texts_append, String.intercalate_append_of_ne_nil
          (texts_ne_nil first.nonempty) (texts_ne_nil more), ← text_eq, ← first.text_eq,
          String.intercalate_cons_cons]

/-- A node whose parts are those of several groups. -/
def spread (kind : String) (groups : List (List Sketch)) : Sketch :=
  .node kind groups.flatten

theorem Reads.node {kind text : String} {texts : List String} {group : List Sketch}
    {groups : List (List Sketch)} (word : Word kind) (first : Reads text group)
    (others : List.Forall₂ Reads texts groups) :
    Reads (Outline.node kind (text :: texts)) [spread kind (group :: groups)] := by
  obtain ⟨some, valid, text_eq⟩ :=
    reads_intercalate (List.cons_ne_nil _ _) (List.Forall₂.cons first others)
  obtain ⟨p, ps, shape⟩ := List.exists_cons_of_ne_nil some
  refine ⟨List.cons_ne_nil _ _, ?_, ?_⟩
  · rw [shape] at valid
    simp only [spread, shape, List.mem_singleton, forall_eq]
    exact .node word (valid p (by simp)) fun q hq => valid q (by simp [hq])
  · simp [spread, Sketch.texts, Sketch.text, Outline.node, text_eq]

/-- The parts that a list contributes; the empty one is a word. -/
def splice : List Sketch → List Sketch
  | [] => [.leaf "None"]
  | p :: ps => p :: ps

theorem Reads.sequence {texts : List String} {parts : List Sketch}
    (each : List.Forall₂ (fun text part => Reads text [part]) texts parts) :
    Reads (Outline.sequence texts) (splice parts) := by
  have joined (some : texts ≠ []) : Reads (",".intercalate texts) parts := by
    simpa [← List.flatMap_def] using reads_intercalate some (List.forall₂_map_right_iff.2 each)
  cases each with
  | nil => exact .none
  | cons first others => exact joined (List.cons_ne_nil _ _)

/-- A missing part is a word. -/
def optional : Option Sketch → List Sketch
  | .none => [.leaf "None"]
  | .some p => [p]

section

variable {α : Type} {shown : α → String} {sketch : α → Sketch}

theorem Reads.map {xs : List α} (each : ∀ x ∈ xs, Reads (shown x) [sketch x]) :
    Reads (Outline.sequence (xs.map shown)) (splice (xs.map sketch)) :=
  .sequence (List.forall₂_map_left_iff.2 (List.forall₂_map_right_iff.2 (List.forall₂_same.2 each)))

theorem Reads.optional {x : Option α} (each : ∀ y ∈ x, Reads (shown y) [sketch y]) :
    Reads (Outline.optional (x.map shown)) (Sketch.optional (x.map sketch)) := by
  cases x with
  | none => exact .none
  | some y => exact each y rfl

end

/-- The kind of a node, the text of a leaf. -/
def label : Sketch → String
  | leaf text => text
  | node kind _ => kind

@[simp] theorem label_leaf (text : String) : (leaf text).label = text := rfl

@[simp] theorem label_spread (kind : String) (groups : List (List Sketch)) :
    (spread kind groups).label = kind := rfl

/-- What the splice of a list with such labels begins with. -/
theorem label_head_splice {labels : List String} {ps : List Sketch}
    (each : ∀ p ∈ ps, p.label ∈ labels) : ∀ p ∈ (splice ps).head?, p.label ∈ "None" :: labels := by
  cases ps with
  | nil => simp [splice]
  | cons p ps => simpa [splice] using .inr (each p (by simp))

/-- A list and what comes after it are told apart if the labels are different. -/
theorem splice_append_inj (labels others : List String) {ps qs s t : List Sketch}
    (noNone : "None" ∉ labels) (apart : ∀ l ∈ others, l ∉ labels)
    (left : ∀ p ∈ ps, p.label ∈ labels) (right : ∀ q ∈ qs, q.label ∈ labels)
    (afterLeft : ∀ p ∈ s.head?, p.label ∈ others) (afterRight : ∀ q ∈ t.head?, q.label ∈ others)
    (same : splice ps ++ s = splice qs ++ t) : ps = qs ∧ s = t := by
  cases ps with
  | nil =>
    cases qs with
    | nil => exact ⟨rfl, (List.cons.inj same).2⟩
    | cons q qs =>
      obtain ⟨rfl, -⟩ := List.cons.inj same
      exact absurd (right (leaf "None") (by simp)) noNone
  | cons p ps =>
    cases qs with
    | nil =>
      obtain ⟨rfl, -⟩ := List.cons.inj same
      exact absurd (left (leaf "None") (by simp)) noNone
    | cons q qs =>
      exact append_inj_of_class left right (fun x hx => apart _ (afterLeft x hx))
        (fun x hx => apart _ (afterRight x hx)) same

theorem splice_inj (labels : List String) {ps qs : List Sketch} (noNone : "None" ∉ labels)
    (left : ∀ p ∈ ps, p.label ∈ labels) (right : ∀ q ∈ qs, q.label ∈ labels)
    (same : splice ps = splice qs) : ps = qs :=
  (splice_append_inj labels [] (s := []) (t := []) noNone nofun left right nofun nofun
    (by simpa using same)).1

end Sketch

end Decaf
