import Mathlib.Data.Set.Function
import Offside.Proofs.Token.Rendering

/-!
# String literals

A text is written down as a string with a backslash in front of every quote; reading the string drops these
backslashes again.  Other backslashes stand for themselves, so the two directions could get in each other's way
where backslashes stand in front of a quote.  They do so in one place only: a text that ends in a backslash would
take the closing quote with it, and cannot be written down at all.

* `escape`, `unescape_escape`, `escape_unescape` — the two directions, on the characters between the quotes;
* `encode`, `Expressible` — the literal of a text, and the texts that have one;
* `encode_exact` — strings and the texts that they denote.
-/

set_option autoImplicit false

namespace Offside.Token

open Piece (Fits Sealed)

/-! ## Between the quotes -/

/-- Puts a backslash in front of every quote. -/
def escape : List Char → List Char
  | [] => []
  | c :: cs => if c = '"' then '\\' :: '"' :: escape cs else c :: escape cs

theorem escape_quote (cs : List Char) : escape ('"' :: cs) = '\\' :: '"' :: escape cs := rfl

theorem escape_of_ne {c : Char} (hc : c ≠ '"') (cs : List Char) : escape (c :: cs) = c :: escape cs :=
  if_neg hc

/-- What is escaped does not begin with a quote. -/
theorem escape_ne_quote (cs rest : List Char) : escape cs ≠ '"' :: rest := by
  cases cs with
  | nil => nofun
  | cons c cs =>
    rw [escape]
    split
    · nofun
    · next hc =>
      intro h
      exact hc (List.cons.inj h).1

theorem sealed_escape (cs : List Char) : Sealed (escape cs) := by
  induction cs with
  | nil => exact Sealed.nil
  | cons c cs ih =>
    rw [escape]
    split
    · exact ih.escaped
    · next hc => exact ih.cons hc

/-- Escaping leaves the last character as it is. -/
theorem getLast?_escape (cs : List Char) : (escape cs).getLast? = cs.getLast? := by
  induction cs with
  | nil => rfl
  | cons c cs ih =>
    rw [escape]
    split
    · next hc => rw [List.getLast?_cons_cons, List.getLast?_cons, List.getLast?_cons, ih, hc]
    · rw [List.getLast?_cons, List.getLast?_cons, ih]

theorem unescape_of_ne {c : Char} {cs : List Char} (h : ∀ rest, c = '\\' → cs = '"' :: rest → False) :
    unescape (c :: cs) = c :: unescape cs := by
  rw [unescape]
  exact h

/-- What was escaped is read back. -/
theorem unescape_escape (cs : List Char) : unescape (escape cs) = cs := by
  induction cs with
  | nil => rfl
  | cons c cs ih =>
    rw [escape]
    split
    · next hc => rw [unescape, ih, hc]
    · rw [unescape_of_ne, ih]
      intro rest _ hrest
      exact escape_ne_quote cs rest hrest

/-- What is between the quotes of a string is the only way to write down what it is read as. -/
theorem escape_unescape {body : List Char} (h : Sealed body) : escape (unescape body) = body := by
  induction body using unescape.induct with
  | case1 => rfl
  | case2 cs ih => rw [unescape, escape_quote, ih h.of_escaped]
  | case3 c cs hescaped ih => rw [unescape_of_ne hescaped, escape_of_ne h.head_ne, ih (h.of_cons hescaped)]

/-! ## Literals -/

/-- The string that denotes a text. -/
def encode (text : String) : String :=
  String.ofList ('"' :: (escape text.toList ++ ['"']))

/-- The text does not end in a backslash. -/
def Expressible (text : String) : Prop :=
  text.toList.getLast? ≠ some '\\'

theorem stringValue_of_body (body : List Char) : stringValue ('"' :: (body ++ ['"'])) = unescape body := by
  rw [stringValue, List.tail_cons, List.dropLast_concat]

theorem encode_injective {a b : String} (h : encode a = encode b) : a = b := by
  have hescape : escape a.toList = escape b.toList := by
    have hlist := (List.cons.inj (String.ofList_injective h)).2
    exact List.append_cancel_right hlist
  rw [← String.toList_inj, ← unescape_escape a.toList, hescape, unescape_escape]

/-- Line feeds stand for themselves. -/
theorem lineBehind_encode (text : String) : lineBehind (encode text).toList = lineBehind text.toList := by
  have hescape : ∀ cs, (escape cs).count '\n' = cs.count '\n' := by
    intro cs
    induction cs with
    | nil => rfl
    | cons c cs ih =>
      rw [escape]
      split
      · next hc => simp [hc, ih]
      · simp [List.count_cons, ih]
  simp [lineBehind, encode, hescape]

/-- The literal of a text is read as one string that denotes the text. -/
theorem scan_encode {text : String} (h : Expressible text) :
    scan (encode text) = ⟨⟨[⟨.string, encode text, .text text, 1⟩], lineBehind text.toList⟩, []⟩ := by
  let p : Piece := ⟨.string, '"' :: (escape text.toList ++ ['"'])⟩
  have hfits : Fits [] p [] := by
    apply Fits.string (sealed_escape _)
    rwa [getLast?_escape]
  have hreads : Reads [] 1 (p.text ++ []) (ofPiece 1 p ++ []) := Reads.piece hfits rfl (Reads.nil _ _)
  rw [List.append_nil, List.append_nil] at hreads
  have hvalue : stringValue p.text = text.toList := by
    rw [stringValue_of_body, unescape_escape]
  have htoken : ofPiece 1 p = [⟨.string, encode text, .text text, 1⟩] := by
    simp only [ofPiece, p, hvalue, String.ofList_toList]
    rfl
  rw [← lineBehind_encode, encode, String.toList_ofList, hreads.scan_eq, htoken]
  rfl

/-! ## Strings of a text -/

theorem ofWord_ne_string (word : String) : Kind.ofWord word ≠ .string := by
  unfold Kind.ofWord
  cases h : Kind.reserved.find? fun k => k.label == word with
  | none => nofun
  | some k =>
    have hmem := List.mem_of_find?_eq_some h
    revert hmem
    rw [Option.getD_some]
    cases k <;> decide

theorem pairSign?_ne_string (first second : Char) : Piece.pairSign? first second ≠ some .string := by
  unfold Piece.pairSign?
  split <;> nofun

theorem singleSign?_ne_string (c : Char) : Piece.singleSign? c ≠ some .string := by
  unfold Piece.singleSign?
  split <;> nofun

theorem ofBlank_ne_string (line : Int) (c : Char) : (ofBlank line c).kind ≠ .string := by
  show (if c = ' ' then Kind.space else Kind.tab) ≠ .string
  split <;> decide

/-- Only strings give tokens that are strings. -/
theorem ofPiece_ne_string {before after : List Char} {line : Int} {p : Piece} {t : Token} (h : Fits before p after)
    (hform : p.form ≠ .string) (ht : t ∈ ofPiece line p) : t.kind ≠ .string := by
  cases h with
  | lineBreak | gap | comment | openString | stray => cases ht
  | string => exact absurd rfl hform
  | indentation =>
    obtain ⟨c, -, rfl⟩ := List.mem_map.1 ht
    exact ofBlank_ne_string line c
  | whole | fraction =>
    rw [List.mem_singleton.1 ht]
    exact (by decide : Kind.number ≠ .string)
  | word =>
    rw [List.mem_singleton.1 ht]
    exact ofWord_ne_string _
  | @pair c d kind _ hsign =>
    rw [List.mem_singleton.1 ht]
    rintro rfl
    exact pairSign?_ne_string c d hsign
  | @single c kind _ hsign =>
    rw [List.mem_singleton.1 ht]
    rintro rfl
    exact singleSign?_ne_string c hsign

/-- A string of a text is the literal of the text that it denotes. -/
theorem Stands.encoded {t : Token} (h : Stands t) (hkind : t.kind = .string) :
    ∃ text, Expressible text ∧ t.literal = .text text ∧ t.lexeme = encode text := by
  cases h with
  | @blank c _ ht =>
    rw [ht] at hkind
    exact absurd hkind (ofBlank_ne_string _ c)
  | @piece p _ _ hfits _ ht =>
    by_cases hform : p.form = .string
    · cases hfits with
      | @string body _ hsealed hlast =>
        refine ⟨String.ofList (unescape body), ?_, ?_, ?_⟩
        · rwa [Expressible, String.toList_ofList, ← getLast?_escape, escape_unescape hsealed]
        · rw [← (List.cons.inj ht).1, stringValue_of_body]
        · rw [← (List.cons.inj ht).1, encode, String.toList_ofList, escape_unescape hsealed]
      | _ => cases hform
    · have hmem : t ∈ ofPiece t.line p := by
        rw [ht]
        exact List.mem_singleton_self t
      exact absurd hkind (ofPiece_ne_string hfits hform hmem)

/-- The strings that occur in texts. -/
def stringLexemes : Set String :=
  {lexeme | ∃ source, ∃ t ∈ (scan source).stream.tokens, t.kind = .string ∧ t.lexeme = lexeme}

/-- The texts that strings denote. -/
def stringTexts : Set String :=
  {text | ∃ source, ∃ t ∈ (scan source).stream.tokens, t.kind = .string ∧ t.literal = .text text}

theorem encoded_of_mem_scan {source : String} {t : Token} (ht : t ∈ (scan source).stream.tokens)
    (hkind : t.kind = .string) : ∃ text, Expressible text ∧ t.literal = .text text ∧ t.lexeme = encode text :=
  ((writable_scan source).stands t ht).encoded hkind

theorem mem_scan_encode {text : String} (h : Expressible text) :
    (⟨.string, encode text, .text text, 1⟩ : Token) ∈ (scan (encode text)).stream.tokens := by
  rw [scan_encode h]
  exact List.mem_singleton_self _

/-- **String literals are exact.**  A text that does not end in a backslash is written down as a literal, which is
read as a single string that denotes the text, without a report; a text that does is not read back so.  The other
way round, every string of every text denotes a text that does not end in a backslash, and is the literal of that
text.  So strings and the texts that they denote correspond to one another, one to one, and the texts that can be
written down are those that do not end in a backslash. -/
theorem encode_exact :
    (∀ text, Expressible text ↔
      scan (encode text) = ⟨⟨[⟨.string, encode text, .text text, 1⟩], lineBehind text.toList⟩, []⟩) ∧
    (∀ source, ∀ t ∈ (scan source).stream.tokens, t.kind = .string →
      ∃ text, Expressible text ∧ t.literal = .text text ∧ t.lexeme = encode text) ∧
    Set.BijOn encode {text | Expressible text} stringLexemes ∧
    stringTexts = {text | Expressible text} := by
  have hexpressible : ∀ text, text ∈ stringTexts → Expressible text := by
    rintro text ⟨source, t, ht, hkind, hliteral⟩
    obtain ⟨text', htext, hliteral', -⟩ := encoded_of_mem_scan ht hkind
    rw [hliteral', Literal.text.injEq] at hliteral
    exact hliteral ▸ htext
  refine ⟨fun text => ⟨scan_encode, fun hscan => ?_⟩, fun source t => encoded_of_mem_scan, ⟨?_, ?_, ?_⟩, ?_⟩
  · apply hexpressible
    refine ⟨encode text, ⟨.string, encode text, .text text, 1⟩, ?_, rfl, rfl⟩
    rw [hscan]
    exact List.mem_singleton_self _
  · intro text htext
    exact ⟨encode text, _, mem_scan_encode htext, rfl, rfl⟩
  · intro a _ b _ h
    exact encode_injective h
  · rintro lexeme ⟨source, t, ht, hkind, rfl⟩
    obtain ⟨text, htext, -, hlexeme⟩ := encoded_of_mem_scan ht hkind
    exact ⟨text, htext, hlexeme.symm⟩
  · ext text
    refine ⟨hexpressible text, fun htext => ?_⟩
    exact ⟨encode text, _, mem_scan_encode htext, rfl, rfl⟩

theorem encode_exact_quoted :
    Expressible "a\"b" ∧ scan "\"a\\\"b\"" = ⟨⟨[⟨.string, "\"a\\\"b\"", .text "a\"b", 1⟩], 1⟩, []⟩ := by
  have hexpressible : Expressible "a\"b" := by
    unfold Expressible
    decide
  exact ⟨hexpressible, (encode_exact.1 "a\"b").1 hexpressible⟩

/-- A backslash in front of a quote stands for itself; the one behind it escapes the quote. -/
example : encode "a\\\"b" = "\"a\\\\\"b\"" := by
  decide +kernel

end Offside.Token
