import Mathlib.Data.List.Forall2
import Decaf.Language.Constant

/-!
# Quotations

The items of which a string lexeme is made, and what they mean. A lexeme that encloses items in
quotes is decoded item by item, so that each text is read from every way of spelling it. Apart from
these lexemes the reader accepts those in which a backslash before the last quote is left over, and
no others.
-/

namespace Decaf

namespace Quoted

/-- The characters that are recognized after a backslash, each with what the two stand for. -/
def escapes : List (Char × Char) :=
  [('a', '\x07'), ('b', '\x08'), ('t', '\t'), ('n', '\n'), ('v', '\x0b'), ('f', '\x0c'),
    ('r', '\r'), ('\\', '\\'), ('\'', '\''), ('"', '"')]

/-- A character that stands alone, or a backslash with the character after it. -/
inductive Item where
  | plain (c : Char) (noBackslash : c ≠ '\\')
  | escape (c : Char)
  deriving DecidableEq

namespace Item

def written : Item → List Char
  | plain c _ => [c]
  | escape c => ['\\', c]

/-- A plain character stands for itself, quotes included. An escape that is not recognized stands
for nothing. -/
def meaning : Item → List Char
  | plain c _ => [c]
  | escape c => (escapes.lookup c).toList

/-- The item is one of the ways to write the character. -/
def Spells : Item → Char → Prop
  | plain c _, d => c = d
  | escape c, d => (c, d) ∈ escapes

instance (i : Item) (d : Char) : Decidable (i.Spells d) :=
  match i with
  | plain c _ => inferInstanceAs (Decidable (c = d))
  | escape c => inferInstanceAs (Decidable ((c, d) ∈ escapes))

end Item

def inQuotes (body : List Char) : String :=
  String.ofList ('"' :: (body ++ ['"']))

/-- The lexeme that has the items between its quotes. -/
def enclosed (items : List Item) : String :=
  inQuotes (items.flatMap Item.written)

/-- As `enclosed`, with a backslash before the last quote that makes it an escape. -/
def unclosed (items : List Item) : String :=
  inQuotes (items.flatMap Item.written ++ ['\\'])

section Bodies

variable {quote c d : Char} {lexeme body rest : List Char} {items items' : List Item}

theorem unescape_eq (c : Char) : unescape c = escapes.lookup c := by
  unfold unescape
  split
  case h_11 a b t n v f r backslash apostrophe quote =>
    have other {e : Char} (differs : c = e → False) : (c == e) = false := beq_false_of_ne differs
    simp only [escapes, List.lookup_cons, List.lookup_nil, other a, other b, other t, other n,
      other v, other f, other r, other backslash, other apostrophe, other quote]
  all_goals rfl

/-- No character is listed twice. -/
theorem lookup_escapes (h : (c, d) ∈ escapes) : escapes.lookup c = some d := by
  have all : ∀ e ∈ escapes, escapes.lookup e.1 = some e.2 := by decide
  exact all (c, d) h

theorem interior?_eq_some_iff :
    interior? quote lexeme = some body ↔ lexeme = quote :: (body ++ [quote]) := by
  cases lexeme with
  | nil => simp [interior?]
  | cons first rest =>
    simp only [interior?, List.getLast?_eq_some_iff, Option.ite_none_right_eq_some,
      Option.some.injEq, List.cons.injEq]
    constructor
    · rintro ⟨⟨rfl, inside, rfl⟩, rfl⟩
      rw [List.dropLast_concat]
      exact ⟨rfl, rfl⟩
    · rintro ⟨rfl, rfl⟩
      exact ⟨⟨rfl, body, rfl⟩, List.dropLast_concat⟩

theorem decodeBody_cons (noBackslash : c ≠ '\\') (rest : List Char) :
    decodeBody (c :: rest) = c :: decodeBody rest := by
  cases rest <;> simp [decodeBody, noBackslash]

/-- Items are decoded one by one, whatever comes after them. -/
theorem decodeBody_append (items : List Item) (rest : List Char) :
    decodeBody (items.flatMap Item.written ++ rest) =
      items.flatMap Item.meaning ++ decodeBody rest := by
  induction items with
  | nil => rfl
  | cons i items ih =>
    simp only [List.flatMap_cons, List.append_assoc]
    cases i with
    | plain c noBackslash =>
      exact (decodeBody_cons noBackslash _).trans (congrArg (c :: ·) ih)
    | escape c =>
      calc decodeBody ('\\' :: c :: (items.flatMap Item.written ++ rest))
          = (unescape c).toList ++ decodeBody (items.flatMap Item.written ++ rest) := rfl
        _ = (escapes.lookup c).toList ++ (items.flatMap Item.meaning ++ decodeBody rest) := by
          rw [unescape_eq, ih]

/-- Whatever stands between the quotes is made of items, but for a backslash that may be left over
at the end. -/
theorem exists_items (body : List Char) : ∃ items : List Item,
    body = items.flatMap Item.written ∨ body = items.flatMap Item.written ++ ['\\'] := by
  fun_induction decodeBody body with
  | case1 => exact ⟨[], .inl rfl⟩
  | case2 => exact ⟨[], .inr rfl⟩
  | case3 c rest ih =>
    obtain ⟨items, rfl | rfl⟩ := ih
    · exact ⟨.escape c :: items, .inl rfl⟩
    · exact ⟨.escape c :: items, .inr rfl⟩
  | case4 c rest alone escapes ih =>
    have noBackslash : c ≠ '\\' := by
      rintro rfl
      cases rest with
      | nil => exact alone rfl rfl
      | cons e rest => exact escapes e rest rfl rfl
    obtain ⟨items, rfl | rfl⟩ := ih
    · exact ⟨.plain c noBackslash :: items, .inl rfl⟩
    · exact ⟨.plain c noBackslash :: items, .inr rfl⟩

/-- Where items end does not depend on how they are read: a backslash that is left over starts no
escape. -/
theorem written_ne_append_backslash (items items' : List Item) :
    items.flatMap Item.written ≠ items'.flatMap Item.written ++ ['\\'] := by
  induction items generalizing items' with
  | nil => simp
  | cons i items ih =>
    cases i with
    | plain c noBackslash =>
      cases items' with
      | nil => simp [Item.written, noBackslash]
      | cons i' items' =>
        cases i' with
        | plain c' _ => simp [Item.written, ih items']
        | escape c' => simp [Item.written, noBackslash]
    | escape c =>
      cases items' with
      | nil => simp [Item.written]
      | cons i' items' =>
        cases i' with
        | plain c' noBackslash => simp [Item.written, noBackslash.symm]
        | escape c' => simp [Item.written, ih items']

theorem Item.meaning_of_spells {i : Item} (h : i.Spells d) : i.meaning = [d] := by
  cases i with
  | plain c noBackslash => exact congrArg ([·]) h
  | escape c => rw [meaning, lookup_escapes h, Option.toList_some]

/-- Every character can be written. -/
theorem Item.exists_spells (d : Char) : ∃ i : Item, i.Spells d := by
  by_cases backslash : d = '\\'
  · subst backslash
    exact ⟨.escape '\\', by decide⟩
  · exact ⟨.plain d backslash, rfl⟩

/-- Items that spell the characters of a text mean the text. -/
theorem meaning_of_spells {text : List Char} (h : List.Forall₂ Item.Spells items text) :
    items.flatMap Item.meaning = text := by
  induction h with
  | nil => rfl
  | cons first _ ih => rw [List.flatMap_cons, Item.meaning_of_spells first, ih]; rfl

end Bodies

end Quoted

open Quoted

section

variable {lexeme text : String}

theorem eq_inQuotes_iff {body : List Char} :
    lexeme = inQuotes body ↔ interior? '"' lexeme.toList = some body := by
  rw [interior?_eq_some_iff, inQuotes, ← String.toList_inj, String.toList_ofList]

theorem inQuotes_inj {body body' : List Char} (same : inQuotes body = inQuotes body') :
    body = body' := by
  have inside := eq_inQuotes_iff.1 same
  rw [eq_inQuotes_iff.1 rfl] at inside
  exact Option.some.inj inside

theorem decodeString_eq_ok_iff : decodeString lexeme = .ok text ↔
    ∃ body, lexeme = inQuotes body ∧ text = String.ofList (decodeBody body) := by
  simp only [eq_inQuotes_iff, decodeString, decodeString?]
  cases interior? '"' lexeme.toList with
  | none => simp
  | some body => simp [eq_comm]

/-- What is not in quotes is refused. -/
theorem decodeString_eq_error_iff :
    decodeString lexeme = .error (.malformedString lexeme) ↔ ¬ ∃ body, lexeme = inQuotes body := by
  simp only [eq_inQuotes_iff, decodeString, decodeString?]
  cases interior? '"' lexeme.toList <;> simp

theorem decodeString_enclosed_eq (items : List Item) :
    decodeString (enclosed items) = .ok (String.ofList (items.flatMap Item.meaning)) := by
  have decoded := decodeBody_append items []
  rw [List.append_nil, decodeBody, List.append_nil] at decoded
  exact decodeString_eq_ok_iff.2 ⟨_, rfl, by rw [decoded]⟩

/-- The backslash that is left over counts for nothing. -/
theorem decodeString_unclosed_eq (items : List Item) :
    decodeString (unclosed items) = .ok (String.ofList (items.flatMap Item.meaning)) := by
  have decoded := decodeBody_append items ['\\']
  rw [decodeBody, List.append_nil] at decoded
  exact decodeString_eq_ok_iff.2 ⟨_, rfl, by rw [decoded]⟩

/-- A lexeme in quotes has items between them, but for a backslash that may be left over. -/
theorem exists_inQuotes_iff : (∃ body, lexeme = inQuotes body) ↔
    ∃ items, lexeme = enclosed items ∨ lexeme = unclosed items := by
  constructor
  · rintro ⟨body, rfl⟩
    obtain ⟨items, rfl | rfl⟩ := exists_items body
    · exact ⟨items, .inl rfl⟩
    · exact ⟨items, .inr rfl⟩
  · rintro ⟨items, rfl | rfl⟩
    · exact ⟨_, rfl⟩
    · exact ⟨_, rfl⟩

theorem decodeString_eq_ok_iff_items : decodeString lexeme = .ok text ↔
    ∃ items, (lexeme = enclosed items ∨ lexeme = unclosed items) ∧
      text = String.ofList (items.flatMap Item.meaning) := by
  constructor
  · intro read
    obtain ⟨body, quoted, -⟩ := decodeString_eq_ok_iff.1 read
    obtain ⟨items, rfl | rfl⟩ := exists_inQuotes_iff.1 ⟨body, quoted⟩
    · exact ⟨items, .inl rfl, Except.ok.inj (read.symm.trans (decodeString_enclosed_eq items))⟩
    · exact ⟨items, .inr rfl, Except.ok.inj (read.symm.trans (decodeString_unclosed_eq items))⟩
  · rintro ⟨items, rfl | rfl, rfl⟩
    · exact decodeString_enclosed_eq items
    · exact decodeString_unclosed_eq items

theorem enclosed_ne_unclosed (items items' : List Item) : enclosed items ≠ unclosed items' :=
  fun same => written_ne_append_backslash items items' (inQuotes_inj same)

end

/-- The meaning of a lexeme is put together from those of its items. So a text is read from every
lexeme that spells it character by character, plainly or by escapes, and there is one for each
text. -/
theorem decodeString_enclosed :
    (∀ items : List Item,
      decodeString (enclosed items) = .ok (String.ofList (items.flatMap Item.meaning))) ∧
    (∀ (text : String) (items : List Item), List.Forall₂ Item.Spells items text.toList →
      decodeString (enclosed items) = .ok text) ∧
    ∀ text : String, ∃ items, List.Forall₂ Item.Spells items text.toList := by
  refine ⟨decodeString_enclosed_eq, fun text items spelled => ?_, fun text => ?_⟩
  · rw [decodeString_enclosed_eq, meaning_of_spells spelled, String.ofList_toList]
  · induction text.toList with
    | nil => exact ⟨[], .nil⟩
    | cons d rest ih =>
      obtain ⟨i, first⟩ := Item.exists_spells d
      obtain ⟨items, others⟩ := ih
      exact ⟨i :: items, .cons first others⟩

/-- A quote that stands plainly, one behind a backslash, a backslash and a line feed. -/
theorem decodeString_enclosed_quotes : decodeString "\"\"\\\"\\\\\\n\"" = .ok "\"\"\\\n" := by
  have items : List.Forall₂ Item.Spells
      [.plain '"' (by decide), .escape '"', .escape '\\', .escape 'n'] "\"\"\\\n".toList := by
    decide
  exact decodeString_enclosed.2.1 _ _ items

/-- A lexeme is read if it has items between quotes or if it has items and a backslash that is left
over between quotes, and is malformed otherwise. So the lexemes in which a backslash is left over are
the only ones that are read without being closed. -/
theorem decodeString_accepts (lexeme : String) :
    (∀ text, decodeString lexeme = .ok text ↔
      ∃ items, (lexeme = enclosed items ∨ lexeme = unclosed items) ∧
        text = String.ofList (items.flatMap Item.meaning)) ∧
    (decodeString lexeme = .error (.malformedString lexeme) ↔
      ¬ ∃ items, lexeme = enclosed items ∨ lexeme = unclosed items) ∧
    (((∃ text, decodeString lexeme = .ok text) ↔ ∃ items, lexeme = enclosed items) ↔
      ¬ ∃ items, lexeme = unclosed items) := by
  refine ⟨fun text => decodeString_eq_ok_iff_items, ?_, ?_, ?_⟩
  · rw [decodeString_eq_error_iff, exists_inQuotes_iff]
  · rintro agree ⟨items, rfl⟩
    obtain ⟨items', same⟩ := agree.1 ⟨_, decodeString_unclosed_eq items⟩
    exact enclosed_ne_unclosed items' items same.symm
  · intro closed
    constructor
    · rintro ⟨text, read⟩
      obtain ⟨items, rfl | left, -⟩ := decodeString_eq_ok_iff_items.1 read
      · exact ⟨items, rfl⟩
      · exact absurd ⟨items, left⟩ closed
    · rintro ⟨items, rfl⟩
      exact ⟨_, decodeString_enclosed_eq items⟩

/-- The only character between the quotes is a backslash, which makes the last quote an escape. -/
theorem decodeString_backslash :
    decodeString "\"\\\"" = .ok "" ∧ ¬ ∃ items, "\"\\\"" = enclosed items := by
  refine ⟨rfl, ?_⟩
  rintro ⟨items, same⟩
  exact enclosed_ne_unclosed items [] same.symm

end Decaf
