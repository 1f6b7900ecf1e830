import Mathlib.Data.List.Nodup
import Offside.Proofs.Editor.Index

/-!
# Indexing a workspace

The first question indexes the program files of the workspace.  Where each of them is text or cannot be read at all, all
that are new are indexed behind what was there, and what cannot be read is told of.  A file whose bytes are not text ends the
indexing: the files in front of it have been indexed, the ones behind it have not, and the question fails.

* `Workspace.uriOf_inj` — different places have different URIs;
* `Editor.indexPlaces_append` — indexing in parts;
* `Editor.lookup_searched` — the first question, whatever the files hold.
-/

set_option autoImplicit false

namespace Offside

namespace FileTree

/-- No place of a tree is the tree itself, and no slash is part of a segment. -/
theorem named_of_mem_places {tree : FileTree} {place : List String} (h : place ∈ tree.places) :
    place ≠ [] ∧ ∀ segment ∈ place, '/' ∉ segment.toList := by
  unfold places at h
  rw [List.mem_eraseDups, List.mem_filter, List.mem_append] at h
  obtain ⟨hmem, hne⟩ := h
  refine ⟨by simpa using hne, ?_⟩
  rcases hmem with hmem | hmem
  · obtain ⟨e, he, rfl⟩ := List.mem_map.1 hmem
    exact tree.named e he
  · obtain ⟨e, he, hmem⟩ := List.mem_flatMap.1 hmem
    obtain ⟨n, -, rfl⟩ := List.mem_map.1 hmem
    intro segment hsegment
    exact tree.named e he segment (List.mem_of_mem_take hsegment)

end FileTree

namespace Bindings

theorem put_of_get?_eq_none {α : Type} {name : String} {bindings : Bindings α} (value : α)
    (h : bindings.get? name = none) : bindings.put name value = bindings ++ [(name, value)] := by
  induction bindings with
  | nil => rfl
  | cons entry more ih =>
    have hne : entry.1 ≠ name := by
      intro heq
      simp [get?, heq] at h
    have hmore : Bindings.get? more name = none := by
      simpa [get?, hne] using h
    simp [put, hne, ih hmore]

end Bindings

namespace Editor

namespace Workspace

variable (w : Workspace)

/-- The places that are searched. -/
def searched : List (List String) :=
  if w.isRoot then w.programPlaces else []

/-- Whether there is a file at the place that can be read. -/
def isReadable (place : List String) : Bool :=
  match w.files.at? place with
  | some (.file _) => true
  | _ => false

/-- The text of the file at a place. -/
def textAt? (place : List String) : Option String :=
  match w.files.at? place with
  | some (.file bytes) => Text.ofBytes? bytes
  | _ => none

/-- The bytes of the file at the place are not text. -/
def IsDamaged (place : List String) : Prop :=
  w.isReadable place = true ∧ w.textAt? place = none

instance (place : List String) : Decidable (w.IsDamaged place) :=
  inferInstanceAs (Decidable (_ ∧ _))

variable {w}

theorem isReadable_iff {place : List String} :
    w.isReadable place = true ↔ ∃ bytes, w.files.at? place = some (.file bytes) := by
  unfold isReadable
  cases w.files.at? place with
  | none => simp
  | some entry => cases entry <;> simp

theorem textAt?_eq_some_iff {place : List String} {text : String} :
    w.textAt? place = some text ↔
      ∃ bytes, w.files.at? place = some (.file bytes) ∧ Text.ofBytes? bytes = some text := by
  unfold textAt?
  cases w.files.at? place with
  | none => simp
  | some entry => cases entry <;> simp

theorem isReadable_of_textAt? {place : List String} {text : String} (h : w.textAt? place = some text) :
    w.isReadable place = true := by
  obtain ⟨bytes, hat, -⟩ := textAt?_eq_some_iff.1 h
  exact isReadable_iff.2 ⟨bytes, hat⟩

/-- The bytes at a damaged place. -/
theorem IsDamaged.bytes {place : List String} (h : w.IsDamaged place) :
    ∃ bytes, w.files.at? place = some (.file bytes) ∧ Text.ofBytes? bytes = none := by
  obtain ⟨hfile, htext⟩ := h
  obtain ⟨bytes, hat⟩ := isReadable_iff.1 hfile
  refine ⟨bytes, hat, Option.eq_none_iff_forall_ne_some.2 fun text hread => ?_⟩
  rw [textAt?_eq_some_iff.2 ⟨bytes, hat, hread⟩] at htext
  cases htext

theorem pathOf_inj {p q : List String} (hp : p ≠ []) (hq : q ≠ []) (hpn : ∀ s ∈ p, '/' ∉ s.toList)
    (hqn : ∀ s ∈ q, '/' ∉ s.toList) (h : w.pathOf p = w.pathOf q) : p = q := by
  have hjoined : ("/".intercalate p).toList = ("/".intercalate q).toList := by
    have hchars := congrArg String.toList h
    simp only [pathOf, String.toList_append, List.append_assoc] at hchars
    exact List.append_cancel_left (List.append_cancel_left hchars)
  rw [String.toList_intercalate, String.toList_intercalate] at hjoined
  have hsplit {place : List String} (hne : place ≠ []) (hn : ∀ s ∈ place, '/' ∉ s.toList) :
      Text.splitAt '/' (['/'].intercalate (place.map String.toList)) = place.map String.toList := by
    apply Text.splitAt_intercalate (by simpa using hne)
    intro part hpart
    obtain ⟨s, hs, rfl⟩ := List.mem_map.1 hpart
    exact hn s hs
  have hparts := congrArg (Text.splitAt '/') hjoined
  have hslash : "/".toList = ['/'] := rfl
  rw [hslash, hsplit hp hpn, hsplit hq hqn] at hparts
  exact List.map_injective_iff.2 (fun _ _ => String.toList_injective) hparts

/-- Different places have different URIs. -/
theorem uriOf_inj {p q : List String} (hp : p ∈ w.files.places) (hq : q ∈ w.files.places)
    (h : w.uriOf p = w.uriOf q) : p = q := by
  obtain ⟨hp, hpn⟩ := FileTree.named_of_mem_places hp
  obtain ⟨hq, hqn⟩ := FileTree.named_of_mem_places hq
  apply pathOf_inj hp hq hpn hqn
  apply Text.percentEncode_injective
  apply String.toList_injective
  have hchars := congrArg String.toList h
  simp only [uriOf, String.toList_append] at hchars
  exact List.append_cancel_left hchars

theorem nodup_uris_searched : (w.searched.map w.uriOf).Nodup := by
  unfold searched
  split
  · apply List.Nodup.map_on
    · intro p hp q hq h
      exact uriOf_inj (List.mem_of_mem_filter hp) (List.mem_of_mem_filter hq) h
    · exact (nodup_eraseDups _).filter _
  · exact List.nodup_nil

end Workspace

/-! ## Parts of a search -/

variable {w : Workspace} {e : Editor}

/-- The place has not been indexed. -/
def isNew (w : Workspace) (e : Editor) (place : List String) : Bool :=
  (e.index.get? (w.uriOf place)).isNone

/-- The texts of the files that have not been indexed. -/
def fresh (w : Workspace) (e : Editor) (places : List (List String)) : List (String × String) :=
  (places.filter (e.isNew w)).filterMap fun place => (w.textAt? place).map fun text => (w.uriOf place, text)

/-- What is told of the places that have not been indexed and cannot be read. -/
def warnings (w : Workspace) (e : Editor) (places : List (List String)) : List Event :=
  ((places.filter (e.isNew w)).filter fun place => !w.isReadable place).map fun place =>
    .warn (unreadWarning (w.pathOf place) (w.reasonAt place))

/-- No file that has not been indexed is damaged. -/
def Sound (w : Workspace) (e : Editor) (places : List (List String)) : Prop :=
  ∀ place ∈ places, e.isNew w place = true → ¬ w.IsDamaged place

instance (w : Workspace) (e : Editor) (places : List (List String)) : Decidable (e.Sound w places) :=
  inferInstanceAs (Decidable (∀ place ∈ places, e.isNew w place = true → ¬ w.IsDamaged place))

/-- Indexing a document leaves the places of others new. -/
theorem isNew_update {uri : String} (text : String) {place : List String} (h : uri ≠ w.uriOf place) :
    (e.update uri text).1.isNew w place = e.isNew w place := by
  unfold isNew update
  rw [Bindings.get?_put_of_ne h]

theorem filter_isNew_update {uri : String} (text : String) {places : List (List String)}
    (h : uri ∉ places.map w.uriOf) :
    places.filter ((e.update uri text).1.isNew w) = places.filter (e.isNew w) := by
  apply List.filter_congr
  intro place hplace
  apply isNew_update
  rintro rfl
  exact h (List.mem_map_of_mem hplace)

theorem Sound.update {uri : String} (text : String) {places : List (List String)} (h : e.Sound w places)
    (hnew : uri ∉ places.map w.uriOf) : (e.update uri text).1.Sound w places := by
  intro place hplace hfresh
  rw [isNew_update text (by rintro rfl; exact hnew (List.mem_map_of_mem hplace))] at hfresh
  exact h place hplace hfresh

/-! ## Steps of a search -/

theorem indexPlaces_of_old {place : List String} (more : List (List String)) (h : e.isNew w place = false) :
    e.indexPlaces w (place :: more) = e.indexPlaces w more := by
  have hold : (e.index.get? (w.uriOf place)).isSome = true := by
    simpa [isNew, Option.isSome_iff_ne_none] using h
  rw [indexPlaces, if_pos hold]

theorem indexPlaces_of_text {place : List String} {text : String} (more : List (List String))
    (h : e.isNew w place = true) (htext : w.textAt? place = some text) :
    e.indexPlaces w (place :: more) = (e.update (w.uriOf place) text).1.indexPlaces w more := by
  have hnew : ¬ (e.index.get? (w.uriOf place)).isSome = true := by
    simpa [isNew] using h
  obtain ⟨bytes, hat, hread⟩ := Workspace.textAt?_eq_some_iff.1 htext
  rw [indexPlaces, if_neg hnew]
  simp only [hat, hread]

theorem indexPlaces_of_unread {place : List String} (more : List (List String)) (h : e.isNew w place = true)
    (hfile : w.isReadable place = false) :
    e.indexPlaces w (place :: more) =
      let r := e.indexPlaces w more
      (r.1, .warn (unreadWarning (w.pathOf place) (w.reasonAt place)) :: r.2.1, r.2.2) := by
  have hnew : ¬ (e.index.get? (w.uriOf place)).isSome = true := by
    simpa [isNew] using h
  rw [indexPlaces, if_neg hnew]
  cases hat : w.files.at? place with
  | none => rfl
  | some entry =>
    cases entry with
    | file bytes =>
      rw [Workspace.isReadable_iff.2 ⟨bytes, hat⟩] at hfile
      cases hfile
    | unreadable | directory => rfl

theorem indexPlaces_of_damaged {place : List String} (more : List (List String)) (h : e.isNew w place = true)
    (hdamaged : w.IsDamaged place) : e.indexPlaces w (place :: more) = (e, [], some .notText) := by
  have hnew : ¬ (e.index.get? (w.uriOf place)).isSome = true := by
    simpa [isNew] using h
  obtain ⟨bytes, hat, hread⟩ := hdamaged.bytes
  rw [indexPlaces, if_neg hnew]
  simp only [hat, hread]

/-- Where no new file is damaged, the new files are indexed one after the other and the search goes on. -/
theorem indexPlaces_append {front : List (List String)} (back : List (List String))
    (hfront : (front.map w.uriOf).Nodup) (hsound : e.Sound w front) :
    e.indexPlaces w (front ++ back) =
      let r := (e.updates (fresh w e front)).indexPlaces w back
      (r.1, warnings w e front ++ r.2.1, r.2.2) := by
  induction front generalizing e with
  | nil => rfl
  | cons place front ih =>
    obtain ⟨hplace, hfront⟩ := List.nodup_cons.1 hfront
    obtain ⟨hhere, hsound⟩ := List.forall_mem_cons.1 hsound
    rw [List.cons_append]
    cases hnew : e.isNew w place with
    | false =>
      rw [indexPlaces_of_old _ hnew, ih hfront hsound]
      simp [fresh, warnings, hnew]
    | true =>
      cases htext : w.textAt? place with
      | some text =>
        have hfile : w.isReadable place = true := Workspace.isReadable_of_textAt? htext
        rw [indexPlaces_of_text _ hnew htext, ih hfront (Sound.update text hsound hplace)]
        simp [fresh, warnings, hnew, htext, hfile, filter_isNew_update text hplace, updates]
      | none =>
        have hfile : w.isReadable place = false := by
          cases hfile : w.isReadable place with
          | false => rfl
          | true => exact absurd ⟨hfile, htext⟩ (hhere hnew)
        rw [indexPlaces_of_unread _ hnew hfile, ih hfront hsound]
        simp [fresh, warnings, hnew, htext, hfile]

/-- Indexing documents that are new puts them behind those that are there. -/
theorem index_updates_of_new {history : List (String × String)} (hnodup : (history.map Prod.fst).Nodup)
    (hnew : ∀ change ∈ history, e.index.get? change.1 = none) :
    (e.updates history).index = e.index ++ history.map indexed := by
  induction history generalizing e with
  | nil => simp [updates]
  | cons change history ih =>
    obtain ⟨hchange, hnodup⟩ := List.nodup_cons.1 hnodup
    obtain ⟨hhere, hnew⟩ := List.forall_mem_cons.1 hnew
    have hfirst : (e.update change.1 change.2).1.index = e.index ++ [indexed change] :=
      Bindings.put_of_get?_eq_none _ hhere
    have hlater : ∀ c ∈ history, (e.update change.1 change.2).1.index.get? c.1 = none := by
      intro c hc
      have hne : change.1 ≠ c.1 := fun heq => hchange (heq ▸ List.mem_map_of_mem hc)
      exact (Bindings.get?_put_of_ne hne _ _).trans (hnew c hc)
    have hstep : e.updates (change :: history) = (e.update change.1 change.2).1.updates history := rfl
    rw [hstep, ih hnodup hlater, hfirst, List.append_assoc, List.map_cons, List.singleton_append]

theorem updates_documents (history : List (String × String)) :
    (e.updates history).documents = e.documents ∧ (e.updates history).workspaceIndexed = e.workspaceIndexed := by
  induction history generalizing e with
  | nil => exact ⟨rfl, rfl⟩
  | cons change history ih => exact ih

/-! ## The first question -/

/-- Places without a damaged new file, or a first such file with what is in front of it. -/
theorem sound_or_split (w : Workspace) (e : Editor) (places : List (List String)) :
    e.Sound w places ∨ ∃ front bad back, places = front ++ bad :: back ∧ e.Sound w front ∧
      e.isNew w bad = true ∧ w.IsDamaged bad := by
  induction places with
  | nil => exact .inl (by simp [Sound])
  | cons place places ih =>
    by_cases hplace : e.isNew w place = true ∧ w.IsDamaged place
    · exact .inr ⟨[], place, places, rfl, by simp [Sound], hplace⟩
    · have hhere : e.isNew w place = true → ¬ w.IsDamaged place := fun hnew hdamaged => hplace ⟨hnew, hdamaged⟩
      rcases ih with hsound | ⟨front, bad, back, rfl, hfront, hbad⟩
      · exact .inl (List.forall_mem_cons.2 ⟨hhere, hsound⟩)
      · exact .inr ⟨place :: front, bad, back, rfl, List.forall_mem_cons.2 ⟨hhere, hfront⟩, hbad⟩

theorem isNew_updates (history : List (String × String)) (place : List String) :
    (e.updates history).isNew w place = (e.isNew w place && !(history.map Prod.fst).contains (w.uriOf place)) := by
  induction history generalizing e with
  | nil => simp [updates]
  | cons change history ih =>
    have hstep : e.updates (change :: history) = (e.update change.1 change.2).1.updates history := rfl
    rw [hstep, ih, List.map_cons, List.contains_cons]
    by_cases h : change.1 = w.uriOf place
    · have hold : (e.update change.1 change.2).1.isNew w place = false := by
        simp [isNew, update, h]
      rw [hold, h, beq_self_eq_true, Bool.true_or, Bool.not_true, Bool.and_false, Bool.false_and]
    · have hne : (w.uriOf place == change.1) = false := beq_false_of_ne (Ne.symm h)
      rw [isNew_update _ h, hne, Bool.false_or]

theorem mem_fresh {places : List (List String)} {change : String × String} (h : change ∈ fresh w e places) :
    ∃ place ∈ places, e.isNew w place = true ∧ w.textAt? place = some change.2 ∧ change.1 = w.uriOf place := by
  obtain ⟨place, hplace, htext⟩ := List.mem_filterMap.1 h
  obtain ⟨hplace, hnew⟩ := List.mem_filter.1 hplace
  obtain ⟨text, hread, rfl⟩ := Option.map_eq_some_iff.1 htext
  exact ⟨place, hplace, hnew, hread, rfl⟩

theorem fresh_uris_sublist (w : Workspace) (e : Editor) (places : List (List String)) :
    ((fresh w e places).map Prod.fst).Sublist (places.map w.uriOf) := by
  induction places with
  | nil => simp [fresh]
  | cons place places ih =>
    have hskip : ((fresh w e places).map Prod.fst).Sublist ((place :: places).map w.uriOf) := ih.cons _
    cases hnew : e.isNew w place with
    | false => simpa [fresh, hnew] using hskip
    | true =>
      cases htext : w.textAt? place with
      | none => simpa [fresh, hnew, htext] using hskip
      | some text => simpa [fresh, hnew, htext] using ih.cons_cons (w.uriOf place)

/-- The index behind a search is the one before it, with the new files behind. -/
theorem index_updates_fresh {places : List (List String)} (h : (places.map w.uriOf).Nodup) :
    (e.updates (fresh w e places)).index = e.index ++ (fresh w e places).map indexed := by
  apply index_updates_of_new (h.sublist (fresh_uris_sublist w e places))
  intro change hchange
  obtain ⟨place, -, hnew, -, huri⟩ := mem_fresh hchange
  rw [huri]
  simpa [isNew] using hnew

theorem isNew_of_isNew_updates {history : List (String × String)} {place : List String}
    (h : (e.updates history).isNew w place = true) :
    e.isNew w place = true ∧ w.uriOf place ∉ history.map Prod.fst := by
  rw [isNew_updates, Bool.and_eq_true] at h
  exact ⟨h.1, by simpa using h.2⟩

theorem isNew_updates_of_not_mem {history : List (String × String)} {place : List String}
    (h : w.uriOf place ∉ history.map Prod.fst) : (e.updates history).isNew w place = e.isNew w place := by
  have hcontains : (history.map Prod.fst).contains (w.uriOf place) = false := by
    simpa using h
  rw [isNew_updates, hcontains, Bool.not_false, Bool.and_true]

/-- Searching again finds nothing fresh. -/
theorem fresh_again (w : Workspace) (e : Editor) (places : List (List String)) :
    fresh w (e.updates (fresh w e places)) places = [] := by
  rw [List.eq_nil_iff_forall_not_mem]
  intro change hchange
  obtain ⟨place, hplace, hnew, htext, huri⟩ := mem_fresh hchange
  obtain ⟨hnew, hother⟩ := isNew_of_isNew_updates hnew
  have hmem : (w.uriOf place, change.2) ∈ fresh w e places :=
    List.mem_filterMap.2 ⟨place, List.mem_filter.2 ⟨hplace, hnew⟩, by rw [htext, Option.map_some]⟩
  exact hother (List.mem_map_of_mem hmem)

/-- Searching again tells the same. -/
theorem warnings_again {places : List (List String)} (h : (places.map w.uriOf).Nodup) :
    warnings w (e.updates (fresh w e places)) places = warnings w e places := by
  unfold warnings
  rw [List.filter_filter, List.filter_filter]
  congr 1
  apply List.filter_congr
  intro place hplace
  cases hfile : w.isReadable place with
  | true => rfl
  | false =>
    have hother : w.uriOf place ∉ (fresh w e places).map Prod.fst := by
      intro hmem
      obtain ⟨change, hchange, huri⟩ := List.mem_map.1 hmem
      obtain ⟨source, hsource, -, htext, hsame⟩ := mem_fresh hchange
      have heq : source = place := List.inj_on_of_nodup_map h hsource hplace (hsame.symm.trans huri)
      rw [heq] at htext
      rw [Workspace.isReadable_of_textAt? htext] at hfile
      cases hfile
    rw [isNew_updates_of_not_mem hother]

theorem indexWorkspace_of_notIndexed (hflag : e.workspaceIndexed = false) :
    e.indexWorkspace w = e.indexPlaces w w.searched := by
  rw [indexWorkspace, hflag]
  rfl

/-- A question where no new file is damaged. -/
theorem lookup_of_sound (hflag : e.workspaceIndexed = false) (hsound : e.Sound w w.searched) (name : String) :
    e.lookup w name =
      let after := { e.updates (fresh w e w.searched) with workspaceIndexed := true }
      ⟨after, warnings w e w.searched, .ok (after.named name).head?⟩ := by
  have hrun := indexPlaces_append [] Workspace.nodup_uris_searched hsound
  rw [List.append_nil] at hrun
  rw [lookup, indexWorkspace_of_notIndexed hflag, hrun]
  simp [indexPlaces]

section Damaged

variable {front back : List (List String)} {bad : List String} (hsplit : w.searched = front ++ bad :: back)
  (hfront : e.Sound w front) (hnew : e.isNew w bad = true) (hbad : w.IsDamaged bad)

include hsplit

theorem nodup_uris_front : (front.map w.uriOf).Nodup := by
  have hnodup : (w.searched.map w.uriOf).Nodup := Workspace.nodup_uris_searched
  rw [hsplit, List.map_append] at hnodup
  exact hnodup.of_append_left

include hnew in
/-- Indexing the files in front of a place leaves it new. -/
theorem isNew_updates_front : (e.updates (fresh w e front)).isNew w bad = true := by
  have hnodup : (w.searched.map w.uriOf).Nodup := Workspace.nodup_uris_searched
  rw [hsplit, List.map_append, List.map_cons] at hnodup
  have hother : w.uriOf bad ∉ (fresh w e front).map Prod.fst := by
    intro hmem
    have hmem := (fresh_uris_sublist w e front).subset hmem
    exact (List.nodup_append.1 hnodup).2.2 _ hmem _ List.mem_cons_self rfl
  exact (isNew_updates_of_not_mem hother).trans hnew

include hfront hnew hbad

/-- A question where a damaged file is new. -/
theorem lookup_of_damaged (hflag : e.workspaceIndexed = false) (name : String) :
    e.lookup w name = ⟨e.updates (fresh w e front), warnings w e front, .error .notText⟩ := by
  have hrun := indexPlaces_append (bad :: back) (nodup_uris_front hsplit) hfront
  have hstop := indexPlaces_of_damaged back (isNew_updates_front hsplit hnew) hbad
  rw [lookup, indexWorkspace_of_notIndexed hflag, hsplit, hrun, hstop]
  simp

/-- A further question comes to the same file, and nothing has changed. -/
theorem lookup_again_of_damaged (hflag : e.workspaceIndexed = false) (name : String) :
    (e.updates (fresh w e front)).lookup w name =
      ⟨e.updates (fresh w e front), warnings w e front, .error .notText⟩ := by
  have hsound : (e.updates (fresh w e front)).Sound w front := fun place hplace hnew' =>
    hfront place hplace (isNew_of_isNew_updates hnew').1
  have hstill := isNew_updates_front hsplit hnew
  rw [lookup_of_damaged hsplit hsound hstill hbad ((updates_documents _).2.trans hflag), fresh_again,
    warnings_again (nodup_uris_front hsplit)]
  rfl

end Damaged

/-- **The first question indexes the workspace.**  It succeeds exactly where no new program file is damaged.  Then the
workspace counts as indexed, the new files that are text stand in the index behind what was there, with their symbols,
and what cannot be read, a directory or a file that the system refuses, has been told of.  Otherwise the first damaged file ends the search: the index has only the files
in front of it, the workspace does not count as indexed, and every further question repeats the search and fails as
well. -/
theorem lookup_searched (w : Workspace) {e : Editor} (hflag : e.workspaceIndexed = false) (name : String) :
    let r := e.lookup w name
    r.editor.documents = e.documents ∧
    ((∃ found, r.answer = .ok found) ↔ e.Sound w w.searched) ∧
    (e.Sound w w.searched →
      r.editor.workspaceIndexed = true ∧
      r.editor.index = e.index ++ (fresh w e w.searched).map indexed ∧
      r.events = warnings w e w.searched ∧
      r.answer = .ok (r.editor.named name).head?) ∧
    ∀ front bad back, w.searched = front ++ bad :: back → e.Sound w front → e.isNew w bad = true → w.IsDamaged bad →
      r.editor.workspaceIndexed = false ∧
      r.editor.index = e.index ++ (fresh w e front).map indexed ∧
      r.events = warnings w e front ∧
      r.answer = .error .notText ∧
      ∀ other, r.editor.lookup w other = ⟨r.editor, r.events, .error .notText⟩ := by
  intro r
  refine ⟨?_, ⟨fun ⟨found, hfound⟩ => ?_, fun hsound => ?_⟩, fun hsound => ?_, ?_⟩
  · rcases sound_or_split w e w.searched with hsound | ⟨front, bad, back, hsplit, hfront, hnew, hbad⟩
    · simp only [r, lookup_of_sound hflag hsound, (updates_documents _).1]
    · simp only [r, lookup_of_damaged hsplit hfront hnew hbad hflag, (updates_documents _).1]
  · rcases sound_or_split w e w.searched with hsound | ⟨front, bad, back, hsplit, hfront, hnew, hbad⟩
    · exact hsound
    · simp only [r, lookup_of_damaged hsplit hfront hnew hbad hflag] at hfound
      cases hfound
  · exact ⟨_, congrArg Reply.answer (lookup_of_sound hflag hsound name)⟩
  · simp only [r, lookup_of_sound hflag hsound, index_updates_fresh Workspace.nodup_uris_searched, true_and]
  · intro front bad back hsplit hfront hnew hbad
    have hr : r = ⟨e.updates (fresh w e front), warnings w e front, .error .notText⟩ :=
      lookup_of_damaged hsplit hfront hnew hbad hflag name
    rw [hr]
    refine ⟨(updates_documents _).2.trans hflag, index_updates_fresh (nodup_uris_front hsplit), rfl, rfl, ?_⟩
    intro other
    exact lookup_again_of_damaged hsplit hfront hnew hbad hflag other

/-- A workspace with one program file, and the bytes of that are not text. -/
def damagedWorkspace : Workspace :=
  ⟨.ofList ["w"] [("bad.craft", .file ⟨#[0xff]⟩)], true⟩

/-- A workspace with a program file, a directory that has the name of one, a file that the system refuses, and a damaged
file. -/
def mixedWorkspace : Workspace :=
  ⟨.ofList ["w"] [("a.craft", .file "function f():\n return 1".toUTF8), ("b.craft", .directory),
    ("c.craft", .unreadable "[Errno 13] Permission denied: '/w/c.craft'"), ("d.craft", .file ⟨#[0xff]⟩),
    ("e.craft", .file "set f to 1".toUTF8)], true⟩

theorem lookup_searched_mixedWorkspace :
    start.workspaceIndexed = false ∧
    ((start.lookup mixedWorkspace "f").editor.lookup mixedWorkspace "g").answer = .error .notText ∧
    (start.lookup mixedWorkspace "f").events =
      [.warn "Failed to index /w/b.craft: [Errno 21] Is a directory: '/w/b.craft'",
        .warn "Failed to index /w/c.craft: [Errno 13] Permission denied: '/w/c.craft'"] := by
  obtain ⟨-, -, -, hdamaged⟩ := lookup_searched mixedWorkspace (e := start) rfl "f"
  have hsplit : mixedWorkspace.searched = [["a.craft"], ["b.craft"], ["c.craft"]] ++ ["d.craft"] :: [["e.craft"]] := by
    decide +kernel
  have hfront : start.Sound mixedWorkspace [["a.craft"], ["b.craft"], ["c.craft"]] := by
    decide +kernel
  have hbad : mixedWorkspace.IsDamaged ["d.craft"] := ⟨by decide +kernel, by decide +kernel⟩
  obtain ⟨-, -, hevents, -, hagain⟩ := hdamaged _ _ _ hsplit hfront rfl hbad
  refine ⟨rfl, ?_, ?_⟩
  · rw [hagain]
  · rw [hevents]
    decide +kernel

/-- The first question fails, and the workspace does not count as indexed. -/
theorem lookup_damagedWorkspace :
    (start.lookup damagedWorkspace "f").answer = .error .notText ∧
    (start.lookup damagedWorkspace "f").editor.workspaceIndexed = false ∧
    (start.lookup damagedWorkspace "f").events = [] := by
  decide +kernel

end Editor
end Offside
