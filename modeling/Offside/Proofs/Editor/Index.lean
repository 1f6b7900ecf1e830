import Mathlib.Data.List.Induction
import Mathlib.Data.List.Nodup
import Offside.Editor

/-!
# The index of the editor

After any history of texts the index is what the last text of each document alone would have made of it: a document
keeps the place of its first text, and its symbols are those of its last one.  The table of names is made from the
index, so a name leads to the first declaration of it, in the order of the documents and of the declarations in them.

* `Bindings.put_map` — binding a name again in a list of names with their values;
* `Editor.named_of_tabulated` — the symbols of a name are those of the index, in its order;
* `Editor.find?_entries_outlines` — the first symbol of a name is the first declaration of it;
* `Editor.index_updates` — the index behind a history;
* `Editor.updates_latest` — the answers behind a history.
-/

set_option autoImplicit false

namespace Offside

/-! ## Names without repetition -/

theorem eraseDups_concat {α : Type} [BEq α] [LawfulBEq α] (as : List α) (a : α) :
    (as ++ [a]).eraseDups = as.eraseDups ++ if as.contains a then [] else [a] := by
  rw [List.eraseDups_append]
  by_cases h : as.contains a = true <;> simp_all [List.removeAll, List.eraseDups_cons]

theorem nodup_eraseDups {α : Type} [BEq α] [LawfulBEq α] (as : List α) : as.eraseDups.Nodup := by
  induction as using List.reverseRecOn with
  | nil => simp
  | append_singleton as a ih =>
    rw [eraseDups_concat]
    split
    · simpa using ih
    · rename_i h
      rw [List.nodup_append]
      refine ⟨ih, List.nodup_singleton a, ?_⟩
      rintro x hx y hy rfl
      rw [List.mem_singleton.1 hy, List.mem_eraseDups] at hx
      exact h (List.contains_iff_mem.2 hx)

theorem eraseDups_of_nodup {α : Type} [BEq α] [LawfulBEq α] {as : List α} (h : as.Nodup) : as.eraseDups = as := by
  induction as using List.reverseRecOn with
  | nil => simp
  | append_singleton as a ih =>
    obtain ⟨has, -, ha⟩ := List.nodup_append.1 h
    have hnew : a ∉ as := fun hmem => ha a hmem a List.mem_cons_self rfl
    simp [eraseDups_concat, ih has, hnew]

namespace Bindings

variable {α : Type}

/-- Binding one of some names, each with its value, gives it the new value in its place. -/
theorem put_map (name : String) {keys : List String} (hkeys : keys.Nodup) (f : String → α) (value : α) :
    put name value (keys.map fun key => (key, f key)) =
      (keys ++ if keys.contains name then [] else [name]).map
        fun key => (key, if key = name then value else f key) := by
  induction keys with
  | nil => simp [put]
  | cons key keys ih =>
    obtain ⟨hkey, hkeys⟩ := List.nodup_cons.1 hkeys
    by_cases h : key = name
    · subst h
      have hrest : keys.map (fun k => (k, if k = key then value else f k)) = keys.map fun k => (k, f k) := by
        apply List.map_congr_left
        intro k hk
        rw [if_neg]
        rintro rfl
        exact hkey hk
      simp [put, hrest]
    · have hne : name ≠ key := fun heq => h heq.symm
      simp [put, h, hne, ih hkeys]

end Bindings

namespace Editor

/-! ## The table of names -/

theorem Table.get?_add (table : Table) (outline : Outline) (name : String) :
    ((table.add outline).get? name).getD [] =
      (table.get? name).getD [] ++ [outline].filter fun o => o.symbol.name == name := by
  unfold Table.add
  by_cases h : outline.symbol.name = name
  · simp [h]
  · simp [Bindings.get?_put_of_ne h, h]

theorem Table.get?_foldl_add (table : Table) (outlines : List Outline) (name : String) :
    ((outlines.foldl Table.add table).get? name).getD [] =
      (table.get? name).getD [] ++ outlines.filter fun o => o.symbol.name == name := by
  induction outlines generalizing table with
  | nil => simp
  | cons outline outlines ih =>
    rw [List.foldl_cons, ih, Table.get?_add, List.append_assoc, ← List.filter_append, List.singleton_append]

/-- The table is that of the index. -/
def Tabulated (e : Editor) : Prop :=
  e.table = .ofIndex e.index

theorem named_of_tabulated {e : Editor} (h : e.Tabulated) (name : String) :
    e.named name = (Table.entries e.index).filter fun o => o.symbol.name == name := by
  have hget := Table.get?_foldl_add [] (Table.entries e.index) name
  unfold named
  rw [h, Table.ofIndex, hget]
  rfl

/-! ## Declarations -/

/-- The symbols that a statement at the top level of a document declares, a class in front of its methods. -/
def declarations (uri : String) : Stmt Unit → List Outline
  | .classDef name superclass methods =>
    ⟨symbolAt uri .classSymbol name (classDetail name superclass), methods.map (methodSymbol uri)⟩ ::
      methods.map fun m => ⟨methodSymbol uri m, []⟩
  | .define r => [⟨symbolAt uri .function r.name (signature r), []⟩]
  | .assign name _ _ => [⟨symbolAt uri .variableSymbol name ("set " ++ name.lexeme), []⟩]
  | _ => []

/-- At the top level the statement declares the name: as a class, as a method of a class, as a function or as a
variable. -/
def Declares (name : String) : Stmt Unit → Prop
  | .classDef c _ methods => c.lexeme = name ∨ ∃ m ∈ methods, m.name.lexeme = name
  | .define r => r.name.lexeme = name
  | .assign x _ _ => x.lexeme = name
  | _ => False

theorem declares_iff {name uri : String} (stmt : Stmt Unit) :
    Declares name stmt ↔ ∃ o ∈ declarations uri stmt, o.symbol.name = name := by
  cases stmt <;> simp [Declares, declarations, symbolAt, methodSymbol]

theorem uri_of_declarations {uri : String} {stmt : Stmt Unit} {o : Outline} (h : o ∈ declarations uri stmt) :
    o.symbol.uri = uri := by
  cases stmt with
  | classDef name superclass methods =>
    rcases List.mem_cons.1 h with rfl | h
    · rfl
    · obtain ⟨m, -, rfl⟩ := List.mem_map.1 h
      rfl
  | define r =>
    rw [List.mem_singleton.1 h]
    rfl
  | assign name value site =>
    rw [List.mem_singleton.1 h]
    rfl
  | _ => cases h

/-- A variable that is set again is left out of the symbols, but then it is not the first of its name. -/
theorem find?_entries_outlinesFrom {name : String} (uri : String) {seen : List String} (h : name ∉ seen)
    (statements : List (Stmt Unit)) :
    ((outlinesFrom uri seen statements).flatMap fun o => o :: o.methods.map fun m => ⟨m, []⟩).find?
        (fun o => o.symbol.name == name) =
      (statements.flatMap (declarations uri)).find? fun o => o.symbol.name == name := by
  induction statements generalizing seen with
  | nil => rfl
  | cons stmt more ih =>
    cases stmt with
    | classDef c superclass methods =>
      simp only [outlinesFrom, declarations, List.flatMap_cons, List.find?_append, ih h, List.map_map]
      rfl
    | define r =>
      simp only [outlinesFrom, declarations, List.flatMap_cons, List.find?_append, ih h]
      rfl
    | assign x value site =>
      have hfirst : ∀ o ∈ declarations uri (.assign x value site), o.symbol.name = x.lexeme := by
        intro o ho
        rw [List.mem_singleton.1 ho]
        rfl
      by_cases hx : x.lexeme = name
      · -- the first declaration of the name is here
        have hseen : seen.contains x.lexeme = false := by
          simpa [hx] using h
        simp only [outlinesFrom, hseen, declarations, List.flatMap_cons, List.find?_append]
        simp [symbolAt, hx]
      · have hskip : (declarations uri (.assign x value site)).find? (fun o => o.symbol.name == name) = none := by
          rw [List.find?_eq_none]
          intro o ho
          simpa [hfirst o ho] using hx
        rw [List.flatMap_cons, List.find?_append, hskip, Option.none_or, outlinesFrom]
        split
        · exact ih h
        · have hnext : name ∉ x.lexeme :: seen := List.not_mem_cons_of_ne_of_not_mem (Ne.symm hx) h
          rw [List.flatMap_cons, List.find?_append, ih hnext]
          simp [symbolAt, hx]
    | _ => exact ih h

/-- The first symbol of a name in a document is the first declaration of that name in it. -/
theorem find?_entries_outlines (uri name : String) (statements : List (Stmt Unit)) :
    ((outlines uri statements).flatMap fun o => o :: o.methods.map fun m => ⟨m, []⟩).find?
        (fun o => o.symbol.name == name) =
      (statements.flatMap (declarations uri)).find? fun o => o.symbol.name == name :=
  find?_entries_outlinesFrom uri List.not_mem_nil statements

/-! ## Histories -/

/-- Indexes texts one after the other. -/
def updates (e : Editor) (history : List (String × String)) : Editor :=
  history.foldl (fun e change => (e.update change.1 change.2).1) e

/-- The last text of a document in a history. -/
def lastText (history : List (String × String)) (uri : String) : String :=
  ((history.findRev? fun change => change.1 == uri).map Prod.snd).getD ""

/-- The documents of a history in the order in which they first came up, each with its last text. -/
def latest (history : List (String × String)) : List (String × String) :=
  (history.map Prod.fst).eraseDups.map fun uri => (uri, lastText history uri)

/-- What is indexed of a document. -/
def indexed (document : String × String) : String × List Outline :=
  (document.1, outlines document.1 (Checked.ofSource document.2).statements)

/-- All declarations in some documents. -/
def declared (documents : List (String × String)) : List Outline :=
  documents.flatMap fun d => (Checked.ofSource d.2).statements.flatMap (declarations d.1)

theorem lastText_concat (history : List (String × String)) (change : String × String) (uri : String) :
    lastText (history ++ [change]) uri = if uri = change.1 then change.2 else lastText history uri := by
  unfold lastText
  rw [List.findRev?_eq_find?_reverse, List.findRev?_eq_find?_reverse, List.reverse_concat]
  by_cases h : uri = change.1
  · simp [h]
  · simp [h, Ne.symm h]

/-- A further text takes the place of the last text of its document. -/
theorem put_latest (history : List (String × String)) (change : String × String) :
    Bindings.put change.1 (indexed change).2 ((latest history).map indexed) =
      (latest (history ++ [change])).map indexed := by
  have hput := Bindings.put_map change.1 (nodup_eraseDups (history.map Prod.fst))
    (fun uri => (indexed (uri, lastText history uri)).2) (indexed change).2
  have hold : (latest history).map indexed =
      (history.map Prod.fst).eraseDups.map fun uri => (uri, (indexed (uri, lastText history uri)).2) := by
    simp [latest, indexed]
  have hkeys : (history ++ [change]).map Prod.fst = history.map Prod.fst ++ [change.1] := by
    simp
  rw [hold, hput, latest, hkeys, eraseDups_concat, List.map_map]
  have hcontains : (history.map Prod.fst).eraseDups.contains change.1 = (history.map Prod.fst).contains change.1 := by
    rw [Bool.eq_iff_iff, List.contains_iff_mem, List.contains_iff_mem, List.mem_eraseDups]
  rw [hcontains]
  apply List.map_congr_left
  intro uri _
  rw [Function.comp_apply, lastText_concat]
  split
  · rename_i h
    rw [h]
    rfl
  · rfl

/-- Nothing has been indexed. -/
structure IsBlank (e : Editor) : Prop where
  index : e.index = []
  table : e.table = []

theorem start_isBlank : start.IsBlank :=
  ⟨rfl, rfl⟩

/-- The index behind a history holds the last text of each of its documents, and the table is that of the index. -/
theorem index_updates {e : Editor} (he : e.IsBlank) (history : List (String × String)) :
    (e.updates history).index = (latest history).map indexed ∧ (e.updates history).Tabulated ∧
      (e.updates history).workspaceIndexed = e.workspaceIndexed := by
  induction history using List.reverseRecOn with
  | nil =>
    refine ⟨he.index, ?_, rfl⟩
    show e.table = .ofIndex e.index
    rw [he.index, he.table]
    rfl
  | append_singleton history change ih =>
    obtain ⟨hindex, -, hflag⟩ := ih
    have hstep : e.updates (history ++ [change]) = ((e.updates history).update change.1 change.2).1 := by
      simp [updates]
    rw [hstep]
    refine ⟨?_, rfl, hflag⟩
    rw [← put_latest, ← hindex]
    rfl

theorem lastText_map {uris : List String} (f : String → String) {uri : String} (h : uri ∈ uris) :
    lastText (uris.map fun u => (u, f u)) uri = f uri := by
  unfold lastText
  rw [List.findRev?_eq_find?_reverse]
  cases hfind : (uris.map fun u => (u, f u)).reverse.find? (fun change => change.1 == uri) with
  | none =>
    have hmem : (uri, f uri) ∈ (uris.map fun u => (u, f u)).reverse :=
      List.mem_reverse.2 (List.mem_map_of_mem h)
    have := List.find?_eq_none.1 hfind _ hmem
    simp at this
  | some change =>
    have hkey := List.find?_some hfind
    have hmem := List.mem_reverse.1 (List.mem_of_find?_eq_some hfind)
    obtain ⟨u, -, rfl⟩ := List.mem_map.1 hmem
    rw [← eq_of_beq hkey]
    rfl

/-- The latest texts are the latest of themselves. -/
theorem latest_latest (history : List (String × String)) : latest (latest history) = latest history := by
  have hkeys : (latest history).map Prod.fst = (history.map Prod.fst).eraseDups := by
    rw [latest, List.map_map]
    exact List.map_id _
  rw [latest, hkeys, eraseDups_of_nodup (nodup_eraseDups _)]
  conv => rhs; rw [latest]
  apply List.map_congr_left
  intro uri huri
  rw [latest, lastText_map _ huri]

/-! ## Answers -/

/-- Where the workspace has been indexed, or where there is none, a question changes nothing in the index. -/
theorem answer_lookup {w : Workspace} {e : Editor} (h : e.workspaceIndexed = true ∨ w.isRoot = false)
    (name : String) : (e.lookup w name).answer = .ok (e.named name).head? := by
  unfold lookup indexWorkspace
  by_cases hflag : e.workspaceIndexed = true
  · rw [if_pos hflag]
  · have hroot : w.isRoot = false := h.resolve_left hflag
    simp only [if_neg hflag, hroot, Bool.false_eq_true, if_false, indexPlaces]
    rfl

theorem find?_entries_latest (documents : List (String × String)) (name : String) :
    (Table.entries (documents.map indexed)).find? (fun o => o.symbol.name == name) =
      (declared documents).find? fun o => o.symbol.name == name := by
  induction documents with
  | nil => rfl
  | cons d documents ih =>
    have hfirst := find?_entries_outlines d.1 name (Checked.ofSource d.2).statements
    rw [declared, List.flatMap_cons, List.find?_append, ← hfirst, ← declared, ← ih]
    rw [← List.find?_append]
    rfl

/-- The first symbol of a name behind a history is the first declaration of it in the latest texts. -/
theorem answer_updates {w : Workspace} {e : Editor} (he : e.IsBlank)
    (hw : e.workspaceIndexed = true ∨ w.isRoot = false) (history : List (String × String)) (name : String) :
    ((e.updates history).lookup w name).answer =
      .ok ((declared (latest history)).find? fun o => o.symbol.name == name) := by
  obtain ⟨hindex, htable, hflag⟩ := index_updates he history
  rw [← hflag] at hw
  rw [answer_lookup hw, named_of_tabulated htable, List.head?_filter, hindex, find?_entries_latest]

theorem mem_declared {documents : List (String × String)} {o : Outline} (h : o ∈ declared documents) :
    ∃ d ∈ documents, o.symbol.uri = d.1 ∧ ∃ stmt ∈ (Checked.ofSource d.2).statements, o ∈ declarations d.1 stmt := by
  obtain ⟨d, hd, ho⟩ := List.mem_flatMap.1 h
  obtain ⟨stmt, hstmt, ho⟩ := List.mem_flatMap.1 ho
  exact ⟨d, hd, uri_of_declarations ho, stmt, hstmt, ho⟩

theorem find?_declared_eq_none_iff (documents : List (String × String)) (name : String) :
    (declared documents).find? (fun o => o.symbol.name == name) = none ↔
      ∀ d ∈ documents, ∀ stmt ∈ (Checked.ofSource d.2).statements, ¬ Declares name stmt := by
  rw [List.find?_eq_none]
  constructor
  · intro h d hd stmt hstmt hdeclares
    obtain ⟨o, ho, hname⟩ := (declares_iff stmt).1 hdeclares
    exact h o (List.mem_flatMap.2 ⟨d, hd, List.mem_flatMap.2 ⟨stmt, hstmt, ho⟩⟩) (beq_iff_eq.2 hname)
  · intro h o ho hname
    obtain ⟨d, hd, -, stmt, hstmt, ho⟩ := mem_declared ho
    exact h d hd stmt hstmt ((declares_iff stmt).2 ⟨o, ho, eq_of_beq hname⟩)

/-- **The index depends only on the latest texts.**  Index any texts one after the other, in any order and with any
errors in them.  The symbols of the documents and the table of their names are those of a service that gets each
document once, in the order in which they first came up, with its last text.  As long as no workspace is to be indexed
first, the answer to a name is the first declaration of it in the latest texts, in that order and in the order of the
declarations, a class in front of its methods: a symbol of the document that it names, or none where no latest text
declares the name at its top level. -/
theorem updates_latest {w : Workspace} {e : Editor} (he : e.IsBlank)
    (hw : e.workspaceIndexed = true ∨ w.isRoot = false) (history : List (String × String)) :
    (e.updates history).index = (start.updates (latest history)).index ∧
    (e.updates history).table = (start.updates (latest history)).table ∧
    ∀ name,
      ((e.updates history).lookup w name).answer =
        .ok ((declared (latest history)).find? fun o => o.symbol.name == name) ∧
      (∀ o, ((e.updates history).lookup w name).answer = .ok (some o) →
        o.symbol.name = name ∧ ∃ d ∈ latest history, o.symbol.uri = d.1 ∧
          ∃ stmt ∈ (Checked.ofSource d.2).statements, o ∈ declarations d.1 stmt) ∧
      (((e.updates history).lookup w name).answer = .ok none ↔
        ∀ d ∈ latest history, ∀ stmt ∈ (Checked.ofSource d.2).statements, ¬ Declares name stmt) := by
  obtain ⟨hindex, htable, -⟩ := index_updates he history
  obtain ⟨hindex', htable', -⟩ := index_updates start_isBlank (latest history)
  rw [latest_latest] at hindex'
  refine ⟨hindex.trans hindex'.symm, ?_, fun name => ?_⟩
  · calc (e.updates history).table
        = .ofIndex (e.updates history).index := htable
      _ = .ofIndex (start.updates (latest history)).index := by rw [hindex, hindex']
      _ = (start.updates (latest history)).table := htable'.symm
  · have hanswer := answer_updates he hw history name
    refine ⟨hanswer, fun o ho => ?_, ?_⟩
    · rw [hanswer] at ho
      have hfound := Except.ok.inj ho
      have hname := List.find?_some hfound
      exact ⟨eq_of_beq hname, mem_declared (List.mem_of_find?_eq_some hfound)⟩
    · rw [hanswer, Except.ok.injEq, find?_declared_eq_none_iff]

/-- No workspace. -/
def Workspace.absent : Workspace :=
  ⟨⟨[], [], nofun⟩, false⟩

/-- Two documents, the first of which loses its function to a variable and then to an error. -/
def editedHistory : List (String × String) :=
  [("file:///a", "function f():\n return 1"), ("file:///b", "class C:\n function f():\n  return 2"),
    ("file:///a", "set f to 1"), ("file:///a", "function f(:")]

theorem updates_latest_editedHistory :
    start.IsBlank ∧ Workspace.absent.isRoot = false ∧
    (start.updates editedHistory).table = (start.updates (latest editedHistory)).table ∧
    ((start.updates editedHistory).lookup .absent "f").answer =
      .ok (some ⟨⟨"f", .method, "file:///b", 1, "function f()"⟩, []⟩) := by
  obtain ⟨-, htable, hanswers⟩ := updates_latest start_isBlank (w := .absent) (Or.inr rfl) editedHistory
  refine ⟨start_isBlank, rfl, htable, ?_⟩
  rw [(hanswers "f").1]
  decide +kernel

end Editor
end Offside
