import Offside.Proofs.Reader.Forward
import Offside.Proofs.Reader.Spelling

/-!
# Consuming tokens and lines

How the cursor passes over a text that is read without an error.  Within a line it consumes one real token
after the other; to a line it comes by measuring its indentation.  What it has then passed, indentation
included, is a stretch of the text.

* `Cursor.Passes` — over the tokens of a line;
* `Cursor.Reads` — over lines, each behind indentation that its layout holds;
* `Grammar.Laid` — the same said of the text alone, with `Cursor.Reads.laid` between the two.
-/

set_option autoImplicit false

namespace Offside

open Grammar (Line Balanced)

/-! ## Over the tokens of a line -/

namespace Cursor

/-- Consuming the tokens, all of them real, leads from the one cursor to the other. -/
def Passes : Cursor → List Token → Cursor → Prop
  | s, [], u => u = s
  | s, t :: ts, u =>
    t.isIndentation = false ∧ ∃ rest, s.rest = t :: rest ∧ (s.consume t rest).Passes ts u

/-- The cursor at the first real token of the next line. -/
def begun (s : Cursor) : Cursor :=
  { s with rest := (lineRun s.rest).2 }

/-- The lines lead from the one cursor to the other, each behind indentation that its layout holds; `ends`
holds at the end of every line. -/
def Reads (ends : Cursor → Prop) : Cursor → List Line → Cursor → Prop
  | s, [], u => u = s
  | s, line :: lines, u =>
    line.layout.Holds (lineRun s.rest).1 ∧
      ∃ m, s.begun.Passes line.tokens m ∧ ends m ∧ m.Reads ends lines u

variable {s u : Cursor} {ts us : List Token}

theorem passes_append : s.Passes (ts ++ us) u ↔ ∃ m, s.Passes ts m ∧ m.Passes us u := by
  induction ts generalizing s with
  | nil =>
    constructor
    · intro h
      exact ⟨s, rfl, h⟩
    · rintro ⟨m, rfl, h⟩
      exact h
  | cons t ts ih =>
    constructor
    · rintro ⟨ht, rest, hs, h⟩
      obtain ⟨m, hm, hu⟩ := ih.1 h
      exact ⟨m, ⟨ht, rest, hs, hm⟩, hu⟩
    · rintro ⟨m, ⟨ht, rest, hs, hm⟩, hu⟩
      exact ⟨ht, rest, hs, ih.2 ⟨m, hm, hu⟩⟩

namespace Passes

theorem trans {m : Cursor} (h : s.Passes ts m) (h' : m.Passes us u) : s.Passes (ts ++ us) u :=
  passes_append.2 ⟨m, h, h'⟩

theorem leads (h : s.Passes ts u) : s.Leads u := by
  induction ts generalizing s with
  | nil => cases h; exact Leads.refl _
  | cons t ts ih =>
    obtain ⟨_, rest, hs, h⟩ := h
    exact (leads_consume hs).trans (ih h)

theorem reports (h : s.Passes ts u) : u.reports = s.reports := by
  induction ts generalizing s with
  | nil => cases h; rfl
  | cons t ts ih =>
    obtain ⟨_, rest, hs, h⟩ := h
    exact ih (s := s.consume t rest) h

theorem parens (h : s.Passes ts u) : u.parens = parensOver s.parens ts := by
  induction ts generalizing s with
  | nil => cases h; rfl
  | cons t ts ih =>
    obtain ⟨_, rest, hs, h⟩ := h
    exact ih h

theorem relayout (h : s.Passes ts u) (l : Layout) :
    { s with layout := l }.Passes ts { u with layout := l } := by
  induction ts generalizing s with
  | nil => cases h; rfl
  | cons t ts ih =>
    obtain ⟨ht, rest, hs, h⟩ := h
    exact ⟨ht, rest, hs, ih (s := s.consume t rest) h⟩

end Passes

theorem leads_begun (s : Cursor) : s.Leads s.begun :=
  ⟨lineRun_snd_suffix s.rest, rfl, rfl, rfl, List.prefix_refl _⟩

/-! ## Over lines -/

theorem reads_append {ends : Cursor → Prop} {lines more : List Line} :
    s.Reads ends (lines ++ more) u ↔ ∃ m, s.Reads ends lines m ∧ m.Reads ends more u := by
  induction lines generalizing s with
  | nil =>
    constructor
    · intro h
      exact ⟨s, rfl, h⟩
    · rintro ⟨m, rfl, h⟩
      exact h
  | cons line lines ih =>
    constructor
    · rintro ⟨hl, m, hm, he, h⟩
      obtain ⟨m', hm', hu⟩ := ih.1 h
      exact ⟨m', ⟨hl, m, hm, he, hm'⟩, hu⟩
    · rintro ⟨m', ⟨hl, m, hm, he, hm'⟩, hu⟩
      exact ⟨hl, m, hm, he, ih.2 ⟨m', hm', hu⟩⟩

namespace Reads

variable {ends : Cursor → Prop} {lines more : List Line}

theorem trans {m : Cursor} (h : s.Reads ends lines m) (h' : m.Reads ends more u) :
    s.Reads ends (lines ++ more) u :=
  reads_append.2 ⟨m, h, h'⟩

theorem leads (h : s.Reads ends lines u) : s.Leads u := by
  induction lines generalizing s with
  | nil => cases h; exact Leads.refl _
  | cons line lines ih =>
    obtain ⟨_, m, hm, _, h⟩ := h
    exact (leads_begun s).trans (hm.leads.trans (ih h))

theorem reports (h : s.Reads ends lines u) : u.reports = s.reports := by
  induction lines generalizing s with
  | nil => cases h; rfl
  | cons line lines ih =>
    obtain ⟨_, m, hm, _, h⟩ := h
    exact (ih h).trans hm.reports

/-- Behind balanced lines as many parentheses are open as in front of them. -/
theorem parens (hlines : ∀ line ∈ lines, line.Proper) (h : s.Reads ends lines u) :
    u.parens = s.parens := by
  induction lines generalizing s with
  | nil => cases h; rfl
  | cons line lines ih =>
    obtain ⟨hline, hlines⟩ := List.forall_mem_cons.1 hlines
    obtain ⟨_, m, hm, _, h⟩ := h
    rw [ih hlines h, hm.parens, hline.balanced.parens]
    rfl

theorem relayout (hends : ∀ m l, ends m → ends { m with layout := l }) (h : s.Reads ends lines u)
    (l : Layout) : { s with layout := l }.Reads ends lines { u with layout := l } := by
  induction lines generalizing s with
  | nil => cases h; rfl
  | cons line lines ih =>
    obtain ⟨hl, m, hm, he, h⟩ := h
    exact ⟨hl, { m with layout := l }, hm.relayout l, hends m l he, ih h⟩

end Reads
end Cursor

/-! ## Where a statement may stand -/

namespace Reading

open Grammar (isPlain not_isIndentation_of_isPlain)

variable {s u : Cursor}

/-- Where a statement may be read: no parenthesis is open, the blocks of `l` are, and at most `k` tokens
are left. -/
structure Stands (limit : Nat) (l : Layout) (k : Nat) (s : Cursor) : Prop where
  argumentLimit : s.argumentLimit = limit
  layout : s.layout = l
  parens : s.parens = 0
  length : s.rest.length ≤ k

namespace Stands

variable {limit k : Nat} {l : Layout}

theorem passes {ts : List Token} (h : Stands limit l k s) (hts : Balanced ts) (hp : s.Passes ts u) :
    Stands limit l k u := by
  have hlead := hp.leads
  refine ⟨hlead.argumentLimit.trans h.argumentLimit, hlead.layout.trans h.layout, ?_,
    Nat.le_trans hlead.length_le h.length⟩
  rw [hp.parens, hts.parens, h.parens]

theorem reads {ends : Cursor → Prop} {lines : List Line} (h : Stands limit l k s)
    (hlines : ∀ line ∈ lines, line.Proper) (hr : s.Reads ends lines u) : Stands limit l k u := by
  have hlead := hr.leads
  refine ⟨hlead.argumentLimit.trans h.argumentLimit, hlead.layout.trans h.layout, ?_,
    Nat.le_trans hlead.length_le h.length⟩
  rw [hr.parens hlines, h.parens]

theorem mono {j : Nat} (h : Stands limit l j s) (hj : j ≤ k) : Stands limit l k s :=
  ⟨h.argumentLimit, h.layout, h.parens, Nat.le_trans h.length hj⟩

theorem begun (h : Stands limit l k s) : Stands limit l k s.begun :=
  ⟨h.argumentLimit, h.layout, h.parens, Nat.le_trans s.leads_begun.length_le h.length⟩

theorem relayout (h : Stands limit l k s) (inner : Layout) :
    Stands limit inner k { s with layout := inner } :=
  ⟨h.argumentLimit, rfl, h.parens, h.length⟩

/-- Behind a token that is no parenthesis. -/
theorem consume {t : Token} {rest : List Token} (h : Stands limit l k s) (hrest : s.rest = t :: rest)
    (ht : isPlain t.kind = true) : Stands limit l (k - 1) (s.consume t rest) := by
  have hpass : s.Passes [t] (s.consume t rest) :=
    ⟨not_isIndentation_of_isPlain ht, rest, hrest, rfl⟩
  have hstands := h.passes (.single ht) hpass
  refine ⟨hstands.argumentLimit, hstands.layout, hstands.parens, ?_⟩
  have := Cursor.length_consume_lt hrest
  have := h.length
  omega

end Stands

/-- Where no parenthesis is open, `else` is consumed as any other token. -/
theorem consume_else {word : Token} {rest : List Token} (hs : s.parens = 0)
    (hword : word.kind = .elseWord) :
    s.begun.consume word rest = { s with rest := rest, lastLine := word.line } := by
  unfold Cursor.consume Cursor.begun
  rw [hword]
  simp [hs, Cursor.parensAfter]

end Reading

/-! ## The text that has been passed -/

namespace Grammar

/-- The text is the given tokens, with indentation only where parentheses are open; `n` are open in front
of it. -/
inductive Written : Nat → List Token → List Token → Prop
  | nil {n : Nat} : Written n [] []
  | cons {n : Nat} {t : Token} {ts blanks text : List Token} :
      t.isIndentation = false → (∀ b ∈ blanks, b.isIndentation = true) →
      (blanks ≠ [] → Cursor.parensAfter n t.kind ≠ 0) →
      Written (Cursor.parensAfter n t.kind) ts text → Written n (t :: ts) (t :: (blanks ++ text))

/-- The text is the given lines in order.  On a line, exactly the indentation that its layout holds stands
in front of the first real token; between lines and at the end there may be more indentation, which is on
lines of its own. -/
inductive Laid : List Line → List Token → Prop
  | done {blanks : List Token} : (∀ t ∈ blanks, t.isIndentation = true) → Laid [] blanks
  | line {line : Line} {lines : List Line} {gap run text rest : List Token} {first : Token} :
      (∀ t ∈ gap, t.isIndentation = true) → (∀ t ∈ gap.getLast?, t.line ≠ first.line) →
      (∀ t ∈ run, t.isIndentation = true ∧ t.line = first.line) → line.layout.Holds run →
      Written 0 line.tokens (first :: text) → Laid lines rest →
      Laid (line :: lines) (gap ++ (run ++ (first :: (text ++ rest))))

theorem filter_of_isIndentation {ts : List Token} (h : ∀ t ∈ ts, t.isIndentation = true) :
    ts.filter (fun t => !t.isIndentation) = [] := by
  rw [List.filter_eq_nil_iff]
  intro t ht
  simp [h t ht]

theorem Written.filter {n : Nat} {ts text : List Token} (h : Written n ts text) :
    text.filter (fun t => !t.isIndentation) = ts := by
  induction h with
  | nil => rfl
  | cons ht hb _ _ ih => simp [ht, filter_of_isIndentation hb, ih]

/-- The real tokens of a text are those of its lines. -/
theorem Laid.filter {lines : List Line} {tokens : List Token} (h : Laid lines tokens) :
    tokens.filter (fun t => !t.isIndentation) = lines.flatMap Line.tokens := by
  induction h with
  | done hb => simpa using filter_of_isIndentation hb
  | line hgap _ hrun _ hw _ ih =>
    rw [List.filter_append, filter_of_isIndentation hgap, List.filter_append,
      filter_of_isIndentation fun t ht => (hrun t ht).1, ← List.cons_append, List.filter_append, hw.filter, ih]
    rfl

end Grammar

namespace Cursor

open Grammar (Written Laid)

variable {s u : Cursor}

theorem Passes.written {ts : List Token} (h : s.Passes ts u) :
    ∃ text, s.rest = text ++ u.rest ∧ Written s.parens ts text := by
  induction ts generalizing s with
  | nil => cases h; exact ⟨[], rfl, .nil⟩
  | cons t ts ih =>
    obtain ⟨ht, rest, hs, h⟩ := h
    obtain ⟨text, htext, hw⟩ := ih h
    by_cases hp : parensAfter s.parens t.kind = 0
    · have hrest : (s.consume t rest).rest = rest := if_pos hp
      refine ⟨t :: ([] ++ text), ?_, .cons ht (by simp) (by simp) hw⟩
      rw [hs, ← hrest, htext]
      rfl
    · have hrest : (s.consume t rest).rest = rest.dropWhile Token.isIndentation := if_neg hp
      refine ⟨t :: (rest.takeWhile Token.isIndentation ++ text), ?_,
        .cons ht (fun b hb => List.mem_takeWhile_imp hb) (fun _ => hp) hw⟩
      rw [List.cons_append, List.append_assoc, ← htext, hrest, List.takeWhile_append_dropWhile]
      exact hs

/-- Lines that have been read up to the end are the lines of the text. -/
theorem Reads.laid {ends : Cursor → Prop} {lines : List Line} (hlines : ∀ line ∈ lines, line.Proper)
    (hs : s.parens = 0) (h : s.Reads ends lines u) (hu : ∀ t ∈ u.rest, t.isIndentation = true) :
    Laid lines s.rest := by
  induction lines generalizing s with
  | nil => cases h; exact .done hu
  | cons line lines ih =>
    obtain ⟨hline, hlines⟩ := List.forall_mem_cons.1 hlines
    obtain ⟨hholds, m, hm, _, h⟩ := h
    have hparens : m.parens = 0 := by
      rw [hm.parens, hline.balanced.parens]
      exact hs
    obtain ⟨t, ts, hts, -⟩ := hline.head
    obtain ⟨text, htext, hw⟩ := hm.written
    have hbegun : s.begun.parens = 0 := hs
    rw [hbegun] at hw
    rcases lineRun_cases s.rest with hblank | ⟨gap, run, first, rest, hrest, hgap, hlast, hrun, hfirst⟩
    · have hnil : s.begun.rest = [] := (lineRun_snd_eq_nil_iff s.rest).2 hblank
      rw [hts] at hm
      obtain ⟨_, rest, hcons, _⟩ := hm
      rw [hnil] at hcons
      cases hcons
    · have hsplit := lineRun_of_split rest hgap hlast hrun hfirst
      rw [← hrest] at hsplit
      have hbegunRest : s.begun.rest = first :: rest := congrArg Prod.snd hsplit
      rw [hsplit] at hholds
      have hw' := hw
      rw [hts] at hw'
      cases hw' with
      | cons ht hb hpar hw' =>
        rw [hbegunRest] at htext
        cases htext
        rw [hrest]
        exact .line hgap hlast hrun hholds.reverse hw (ih hlines hparens h)

end Cursor
end Offside
