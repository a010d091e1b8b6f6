import ApiTidy.Proofs.Components

/-!
What giving a route another name does. The renamed route takes the place that the old one had among
the other routes, unless a route with the new name stood before it and others after it: the place is
counted before that route is taken out, so the renamed one comes behind the next of the others.
-/
namespace ApiTidy

namespace Entries
variable {α : Type} {before after : Entries α} {key : String}

/-- An entry put back where one was taken out stays there if no entry of its key stood before, or
if nothing comes after. -/
theorem insertAt_erase_append (h : key ∉ keys before ∨ after = []) (value : α) :
    insertAt (erase (before ++ after) key) before.length key value =
      erase before key ++ (key, value) :: erase after key := by
  by_cases hmem : key ∈ keys before
  case neg => rw [erase_append_of_notMem hmem, insertAt_append, erase_of_notMem hmem]
  obtain rfl := h.resolve_left (not_not_intro hmem)
  have hlength := length_erase_of_mem hmem
  rw [List.append_nil, insertAt_of_length_le (by omega)]
  rfl

/-- Otherwise it comes one place later, as there is one entry less before it. -/
theorem insertAt_erase_append_cons (h : key ∈ keys before) (next : String × α) (value : α) :
    insertAt (erase (before ++ next :: after) key) before.length key value =
      erase before key ++ next :: (key, value) :: after := by
  have hlength : before.length = (erase before key ++ [next]).length := by
    rw [List.length_append, List.length_singleton, length_erase_of_mem h]
  have hnext : erase before key ++ next :: after = (erase before key ++ [next]) ++ after := by simp
  rw [erase_append_of_mem h, hnext, hlength, insertAt_append]
  simp

end Entries

namespace Document
variable {doc changed : Document} {source target : String}

theorem paths_modifyField {entries : Entries Node} (h : doc.region? pathsKey = some entries)
    (inner : Entries Node) :
    (Document.mk (doc.root.modifyField (fun _ => .mapping inner) pathsKey)).paths = inner := by
  have hfield := Node.bind_entries?_eq_some.1 h
  rw [paths, region?, Node.field?_modifyField_self, hfield]
  rfl

/-- The routes that a renaming finds, and those that it leaves. -/
theorem paths_renameRoute (h : renameRoute source target doc = .ok () changed) :
    ∃ before item after, doc.paths = before ++ (source, item) :: after ∧
      source ∉ Entries.keys before ∧
      changed.root = doc.root.modifyField (fun _ => .mapping changed.paths) pathsKey ∧
      changed.paths =
        Entries.insertAt (Entries.erase (before ++ after) target) before.length target item := by
  obtain ⟨root, hroot, rfl⟩ := onRoot_eq_ok.1 h
  obtain ⟨entries, inner, hregion, hedit, rfl⟩ := inField_throw_eq_ok.1 hroot
  have hpaths : doc.paths = entries := by rw [paths, region?, hregion]; rfl
  rw [paths_modifyField hregion, hpaths]
  split at hedit
  next item index hitem hindex =>
    obtain ⟨before, after, rfl, hnew⟩ := Entries.exists_split hitem
    refine ⟨before, item, after, rfl, hnew, rfl, ?_⟩
    have hplace := Entries.position?_split hnew item after
    obtain rfl := Option.some.inj (hplace.symm.trans hindex)
    obtain ⟨-, rfl⟩ := EStateM.Result.ok.inj hedit
    rw [Entries.erase_append_of_notMem hnew]
    simp [Entries.erase]
  next => simp at hedit

theorem distinct_paths (hdoc : doc.root.WellFormed) : Entries.Distinct doc.paths := by
  rw [paths]
  cases hregion : doc.region? pathsKey with
  | none => exact List.nodup_nil
  | some entries =>
    have hfield := Node.bind_entries?_eq_some.1 hregion
    exact (Node.wellFormed_mapping.1 (hdoc.field? hfield)).1

/-- The routes beside a renamed one. -/
theorem distinct_others {before after : Entries Node} {item : Node}
    (hpaths : Entries.Distinct doc.paths) (hfound : doc.paths = before ++ (source, item) :: after) :
    Entries.Distinct (before ++ after) := by
  rw [hfound] at hpaths
  exact hpaths.sublist (((List.sublist_cons_self _ after).append_left before).map _)

theorem distinct_paths_renameRoute (hpaths : Entries.Distinct doc.paths)
    (h : renameRoute source target doc = .ok () changed) : Entries.Distinct changed.paths := by
  obtain ⟨before, item, after, hfound, -, -, hchanged⟩ := paths_renameRoute h
  have hothers := distinct_others hpaths hfound
  rw [hchanged]
  exact (hothers.erase target).insertAt
    (Entries.get?_eq_none_iff.1 (Entries.get?_erase_self hothers target)) _ _

theorem pathItem?_renameRoute_self (hpaths : Entries.Distinct doc.paths)
    (h : renameRoute source target doc = .ok () changed) :
    changed.pathItem? target = doc.pathItem? source := by
  obtain ⟨before, item, after, hfound, hnew, -, hchanged⟩ := paths_renameRoute h
  have herased := Entries.get?_erase_self (distinct_others hpaths hfound) target
  rw [pathItem?, pathItem?, hchanged,
    Entries.get?_insertAt_self (Entries.get?_eq_none_iff.1 herased), hfound, Entries.get?_append,
    Entries.get?_eq_none_iff.2 hnew]
  simp

theorem pathItem?_renameRoute_of_ne {route : String}
    (h : renameRoute source target doc = .ok () changed) (hsource : route ≠ source)
    (htarget : route ≠ target) : changed.pathItem? route = doc.pathItem? route := by
  obtain ⟨before, item, after, hfound, -, -, hchanged⟩ := paths_renameRoute h
  rw [pathItem?, pathItem?, hchanged, Entries.get?_insertAt_of_ne htarget,
    Entries.get?_erase_of_ne htarget, hfound, Entries.get?_append, Entries.get?_append,
    Entries.get?_cons, if_neg (Ne.symm hsource)]

/-- What giving the route `source` the name `target` does, with the routes before it and after it.
Routes are listed with their items, so equal lists have equal items. -/
structure Renamed (doc changed : Document) (source target : String) (before : Entries Node)
    (item : Node) (after : Entries Node) : Prop where
  found : doc.paths = before ++ (source, item) :: after
  /-- Nothing but the routes changes. -/
  root : changed.root = doc.root.modifyField (fun _ => .mapping changed.paths) pathsKey
  in_place : target ∉ Entries.keys before ∨ after = [] →
    changed.paths = Entries.erase before target ++ (target, item) :: Entries.erase after target
  /-- Where a route with the new name stood before, the renamed one goes behind the next one. -/
  one_later : ∀ next later, target ∈ Entries.keys before → after = next :: later →
    changed.paths = Entries.erase before target ++ next :: (target, item) :: later
  carried : changed.pathItem? target = some item
  others : ∀ route, route ≠ source → route ≠ target → changed.pathItem? route = doc.pathItem? route

theorem renameRoute_eq_ok (hdoc : doc.root.WellFormed)
    (h : renameRoute source target doc = .ok () changed) :
    ∃ before item after, Renamed doc changed source target before item after := by
  obtain ⟨before, item, after, hfound, hnew, hroot, hpaths⟩ := paths_renameRoute h
  refine ⟨before, item, after, ?_⟩
  constructor
  case found => exact hfound
  case root => exact hroot
  case in_place => exact fun hplace => hpaths.trans (Entries.insertAt_erase_append hplace item)
  case one_later =>
    rintro next later htarget rfl
    exact hpaths.trans (Entries.insertAt_erase_append_cons htarget next item)
  case carried =>
    rw [pathItem?_renameRoute_self (distinct_paths hdoc) h, pathItem?, hfound, Entries.get?_append,
      Entries.get?_eq_none_iff.2 hnew]
    simp
  case others => exact fun route => pathItem?_renameRoute_of_ne h

/-- Three routes, of which the one in the middle may get the name of either neighbour. -/
def crowded : Document :=
  ⟨.mapping [("paths", .mapping [("/b", .null), ("/a", .ofString "kept"), ("/c", .null)]),
    ("info", .null)]⟩

theorem renameRoute_eq_ok_crowded :
    crowded.root.WellFormed ∧
      ∃ changed before item after, renameRoute "/a" "/c" crowded = .ok () changed ∧
        Renamed crowded changed "/a" "/c" before item after ∧ changed.routes = ["/b", "/c"] := by
  have hwell : crowded.root.WellFormed := by decide
  have hrename : ∃ changed, renameRoute "/a" "/c" crowded = .ok () changed ∧
      changed.routes = ["/b", "/c"] := ⟨_, rfl, by decide⟩
  obtain ⟨changed, hok, hroutes⟩ := hrename
  obtain ⟨before, item, after, hrenamed⟩ := renameRoute_eq_ok hwell hok
  exact ⟨hwell, changed, before, item, after, hok, hrenamed, hroutes⟩

/-- Not every renamed route keeps its place: with the name of the route before it, the one in the
middle goes behind the one after it. -/
theorem not_all_renamings_keep_place :
    ∃ changed, renameRoute "/a" "/b" crowded = .ok () changed ∧
      crowded.routes = ["/b", "/a", "/c"] ∧ changed.routes = ["/c", "/b"] :=
  ⟨_, rfl, by decide, by decide⟩

end Document
end ApiTidy
