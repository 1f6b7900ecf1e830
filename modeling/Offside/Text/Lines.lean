/-!
# Line breaks

Text files may end their lines with a carriage return and a line feed, with either alone, or with a
mixture.  Reading a file turns each of these into one line feed.  The lines of a document in an editor may
also end with one of the rarer line, page and information separators.
-/

set_option autoImplicit false

namespace Offside.Text

/-- Writes every line break as a single line feed. -/
def unifyBreaks : List Char → List Char
  | [] => []
  | '\r' :: '\n' :: cs => '\n' :: unifyBreaks cs
  | '\r' :: cs => '\n' :: unifyBreaks cs
  | c :: cs => c :: unifyBreaks cs

/-- The text of a file, from its bytes: UTF-8 with unified line breaks; `none` for bytes that are not
UTF-8.  A byte order mark is kept. -/
def ofBytes? (bytes : ByteArray) : Option String :=
  (String.fromUTF8? bytes).map fun s => String.ofList (unifyBreaks s.toList)

/-- The parts of a text between the characters `separator`. -/
def splitAt (separator : Char) : List Char → List (List Char)
  | [] => [[]]
  | c :: cs =>
    if c = separator then [] :: splitAt separator cs
    else match splitAt separator cs with
      | [] => [[c]]
      | part :: more => (c :: part) :: more

/-- Code points of the characters that end a line in a document. -/
def lineEnds : List Nat :=
  [0x0a, 0x0b, 0x0c, 0x0d, 0x1c, 0x1d, 0x1e, 0x85, 0x2028, 0x2029]

/-- Whether a character in front of `rest` ends a line; a carriage return leaves that to a line feed right
behind it. -/
def endsLine (c : Char) (rest : List Char) : Bool :=
  lineEnds.contains c.toNat && !(c == '\r' && rest.head? == some '\n')

/-- Lines of a text, each with its line end; a final line end does not start another line. -/
def splitLines : List Char → List (List Char)
  | [] => []
  | c :: cs =>
    if endsLine c cs then [c] :: splitLines cs
    else match splitLines cs with
      | [] => [[c]]
      | line :: more => (c :: line) :: more

theorem not_mem_of_mem_splitAt {separator : Char} {cs part : List Char}
    (h : part ∈ splitAt separator cs) : separator ∉ part := by
  induction cs generalizing part with
  | nil =>
    rw [List.mem_singleton.1 h]
    exact List.not_mem_nil
  | cons c cs ih =>
    rw [splitAt] at h
    split at h
    · rcases List.mem_cons.1 h with rfl | h
      · exact List.not_mem_nil
      · exact ih h
    · rename_i hc
      have hne : separator ≠ c := fun heq => hc heq.symm
      split at h
      · rw [List.mem_singleton.1 h]
        simpa using hne
      · rename_i first more hsplit
        rw [hsplit] at ih
        rcases List.mem_cons.1 h with rfl | h
        · exact List.not_mem_cons_of_ne_of_not_mem hne (ih List.mem_cons_self)
        · exact ih (List.mem_cons_of_mem first h)

/-- A part without the separator is the first part. -/
theorem splitAt_append {separator : Char} {part : List Char} (h : separator ∉ part) (rest : List Char) :
    splitAt separator part = [part] ∧
      splitAt separator (part ++ separator :: rest) = part :: splitAt separator rest := by
  induction part with
  | nil => simp [splitAt]
  | cons c part ih =>
    obtain ⟨hc, hpart⟩ := not_or.1 (mt List.mem_cons.2 h)
    obtain ⟨hone, hmore⟩ := ih hpart
    constructor
    · simp [splitAt, Ne.symm hc, hone]
    · simp [splitAt, Ne.symm hc, hmore]

/-- Splitting undoes the joining of parts without the separator. -/
theorem splitAt_intercalate {separator : Char} {parts : List (List Char)} (hne : parts ≠ [])
    (h : ∀ part ∈ parts, separator ∉ part) :
    splitAt separator ([separator].intercalate parts) = parts := by
  induction parts with
  | nil => exact absurd rfl hne
  | cons part parts ih =>
    obtain ⟨hpart, hparts⟩ := List.forall_mem_cons.1 h
    cases parts with
    | nil => simpa [List.intercalate] using (splitAt_append hpart []).1
    | cons next parts =>
      have hjoin : [separator].intercalate (part :: next :: parts) =
          part ++ separator :: [separator].intercalate (next :: parts) := by
        simp [List.intercalate]
      rw [hjoin, (splitAt_append hpart _).2, ih (List.cons_ne_nil _ _) hparts]

theorem flatten_splitLines (cs : List Char) : (splitLines cs).flatten = cs := by
  induction cs with
  | nil => rfl
  | cons c cs ih =>
    rw [splitLines]
    split
    · simp [ih]
    · split <;> simp_all

end Offside.Text
