import Mathlib.Data.List.Basic
import Mathlib.Data.List.TakeWhile
import Mathlib.Logic.Relation
import ApiTidy.FileSystem
import ApiTidy.Proofs.Except
import ApiTidy.Proofs.Text.Split

/-!
What the operations on a file system that is a value change. No operation takes a directory away,
so a path that leads somewhere leads there still after any of them.
-/
namespace ApiTidy

theorem Place.child_ne_top (place : Place) (name : String) : place.child name ≠ .top := by
  intro h
  have htext := congrArg (fun place => place.text.length) h
  simp [child, top] at htext

namespace FileSystem
variable {files after changed : FileSystem} {base target parent : Place}
  {names : List String} {path name : String}

theorem entryAt_put {place : Place} (h : place ≠ .top) (entry : FileEntry) (other : Place) :
    FileSystem.entry? (files.put place entry) other =
      if other = place then some entry else files.entry? other := by
  by_cases hother : other = place
  · subst hother
    simp [put, entry?, h]
  · have hlookup : ∀ entries : List (Place × FileEntry),
        (entries.filter (·.1 ≠ place)).lookup other = entries.lookup other := by
      intro entries
      induction entries with
      | nil => rfl
      | cons first rest ih =>
        obtain ⟨key, value⟩ := first
        by_cases hkey : key = place
        · have hne : (other == key) = false := beq_false_of_ne (hkey ▸ hother)
          simpa [hkey, List.lookup_cons, hkey ▸ hne] using ih
        · simp only [ne_eq, hkey, not_false_eq_true, decide_true, List.filter_cons_of_pos,
            List.lookup_cons, ih]
    have hne : (other == place) = false := beq_false_of_ne hother
    simp only [put, entry?, List.lookup_cons, hne, hlookup, hother, if_false]

theorem checkDirectory_eq_ok {place : Place} :
    files.checkDirectory place = .ok () ↔ files.entry? place = some .directory := by
  unfold checkDirectory
  split <;> simp_all

/-- Directories stay what they are, also the one that paths start from. -/
structure Retains (files after : FileSystem) : Prop where
  workingDirectory : after.workingDirectory = files.workingDirectory
  directory : ∀ place, files.entry? place = some .directory →
    after.entry? place = some .directory

/-- One name of a path, and the names after it. -/
theorem follow_cons_eq_ok {rest : List String} :
    files.follow base (name :: rest) = .ok target ↔ files.entry? base = some .directory ∧
      ∃ next, files.follow next rest = .ok target ∧
        (next = base ∧ (name = "" ∨ name = ".") ∨ next = base.parent ∧ name = ".." ∨
          next = base.child name ∧ checkName name = .ok () ∧ name ≠ "" ∧ name ≠ "." ∧
            name ≠ "..") := by
  rw [follow, Except.bind_unit_eq_ok, checkDirectory_eq_ok]
  simp only [Bool.or_eq_true, decide_eq_true_eq]
  refine and_congr_right fun _ => ?_
  split
  next hsame =>
    constructor
    · exact fun h => ⟨base, h, .inl ⟨rfl, hsame⟩⟩
    · rintro ⟨next, h, ⟨rfl, -⟩ | ⟨-, rfl⟩ | ⟨-, -, hempty, hdot, -⟩⟩
      · exact h
      · simp at hsame
      · simp [hempty, hdot] at hsame
  next hsame =>
    split
    next hup =>
      constructor
      · exact fun h => ⟨base.parent, h, .inr (.inl ⟨rfl, hup⟩)⟩
      · rintro ⟨next, h, ⟨-, hdots⟩ | ⟨rfl, -⟩ | ⟨-, -, -, -, hdown⟩⟩
        · exact absurd hdots hsame
        · exact h
        · exact absurd hup hdown
    next hup =>
      rw [Except.bind_unit_eq_ok]
      constructor
      · rintro ⟨hname, h⟩
        obtain ⟨hempty, hdot⟩ := not_or.1 hsame
        exact ⟨base.child name, h, .inr (.inr ⟨rfl, hname, hempty, hdot, hup⟩)⟩
      · rintro ⟨next, h, ⟨-, hdots⟩ | ⟨-, hdots⟩ | ⟨rfl, hname, -⟩⟩
        · exact absurd hdots hsame
        · exact absurd hdots hup
        · exact ⟨hname, h⟩

theorem follow_append_eq_ok {first rest : List String} :
    files.follow base (first ++ rest) = .ok target ↔
      ∃ between, files.follow base first = .ok between ∧
        files.follow between rest = .ok target := by
  induction first generalizing base with
  | nil => simp [follow]
  | cons name later ih =>
    rw [List.cons_append, follow_cons_eq_ok]
    simp only [follow_cons_eq_ok, ih]
    constructor
    · rintro ⟨hbase, next, ⟨between, hlater, hrest⟩, hname⟩
      exact ⟨between, ⟨hbase, next, hlater, hname⟩, hrest⟩
    · rintro ⟨between, ⟨hbase, next, hlater, hname⟩, hrest⟩
      exact ⟨hbase, next, ⟨between, hlater, hrest⟩, hname⟩

/-- Slashes after a directory lead to the directory. -/
theorem follow_slashes (hbase : files.entry? base = some .directory)
    (hnames : ∀ name ∈ names, name = "") : files.follow base names = .ok base := by
  induction names with
  | nil => rfl
  | cons name rest ih =>
    obtain ⟨hname, hrest⟩ := List.forall_mem_cons.1 hnames
    exact follow_cons_eq_ok.2 ⟨hbase, base, ih hrest, .inl ⟨rfl, .inl hname⟩⟩

theorem Retains.follow (h : files.Retains after) (hfollow : files.follow base names = .ok target) :
    after.follow base names = .ok target := by
  induction names generalizing base with
  | nil => exact hfollow
  | cons name rest ih =>
    obtain ⟨hbase, next, hrest, hname⟩ := follow_cons_eq_ok.1 hfollow
    exact follow_cons_eq_ok.2 ⟨h.directory base hbase, next, ih hrest, hname⟩

theorem place_eq_ok {base : Place} {names : List String}
    (hstart : files.start path = (base, names)) :
    files.place path = .ok target ↔
      checkPath path = .ok () ∧ files.follow base names = .ok target := by
  rw [place, Except.bind_unit_eq_ok, hstart]

theorem Retains.start_eq (h : files.Retains after) (path : String) :
    after.start path = files.start path := by
  unfold start
  rw [h.workingDirectory]

theorem Retains.place (h : files.Retains after) (hplace : files.place path = .ok target) :
    after.place path = .ok target := by
  obtain ⟨hpath, hfollow⟩ := (place_eq_ok rfl).1 hplace
  exact (place_eq_ok (h.start_eq path)).2 ⟨hpath, h.follow hfollow⟩

/-- A list of names, without the slashes at its end. -/
theorem names_eq_append (names : List String) :
    ∃ slashes, names = (names.reverse.dropWhile (· = "")).reverse ++ slashes ∧
      (∀ slash ∈ slashes, slash = "") ∧
      (names.reverse.dropWhile (· = "")).reverse.getLast? ≠ some "" := by
  refine ⟨(names.reverse.takeWhile (· = "")).reverse, ?_, ?_, ?_⟩
  · rw [← List.reverse_append, List.takeWhile_append_dropWhile, List.reverse_reverse]
  · intro slash hslash
    simpa using List.mem_takeWhile_imp (List.mem_reverse.1 hslash)
  · intro hlast
    rw [List.getLast?_reverse] at hlast
    have hfirst := List.head?_dropWhile_not (fun name => decide (name = "")) names.reverse
    simp [hlast] at hfirst

/-- A last name that is one: it stands after the names that lead to the directory, and only slashes
follow. -/
theorem lastName_eq_ok (h : files.lastName path = .ok (parent, name)) (hdot : name ≠ ".") :
    checkPath path = .ok () ∧ name ≠ "" ∧ files.entry? parent = some .directory ∧
      ∃ base front slashes, files.start path = (base, front ++ name :: slashes) ∧
        files.follow base front = .ok parent ∧ ∀ slash ∈ slashes, slash = "" := by
  obtain ⟨hpath, hrest⟩ := Except.bind_unit_eq_ok.1 h
  cases hstart : files.start path with
  | mk base names =>
    rw [hstart] at hrest
    obtain ⟨place, hfollow, hlater⟩ := Except.bind_eq_ok.1 hrest
    obtain ⟨hdirectory, hpure⟩ := Except.bind_unit_eq_ok.1 hlater
    obtain ⟨rfl, hname⟩ := Prod.mk.inj (Except.pure_eq_ok.1 hpure)
    obtain ⟨slashes, hnames, hslashes, hlast⟩ := names_eq_append names
    cases htrimmed : (names.reverse.dropWhile (· = "")).reverse.getLast? with
    | none =>
      rw [htrimmed] at hname
      exact absurd hname.symm hdot
    | some last =>
      rw [htrimmed, Option.getD_some] at hname
      subst hname
      rw [htrimmed] at hlast
      have hfront := List.dropLast_append_getLast? last htrimmed
      refine ⟨hpath, fun hempty => hlast (hempty ▸ rfl), checkDirectory_eq_ok.1 hdirectory, base,
        _, slashes, ?_, hfollow, hslashes⟩
      rw [List.append_cons, hfront, ← hnames]

/-- After a name that is one only slashes of the path can follow, and then the path ends with one. -/
theorem getLast?_of_slashes {front slashes : List String} (hpath : checkPath path = .ok ())
    (hstart : files.start path = (base, front ++ name :: slashes))
    (hslashes : ∀ slash ∈ slashes, slash = "") (hne : slashes ≠ []) :
    path.toList.getLast? = some '/' := by
  have hpieces : ∀ chars : List Char, chars ≠ [] →
      (Text.pieces '/' chars).map String.ofList = front ++ name :: slashes →
      chars.getLast? = some '/' := by
    intro chars hchars hnames
    refine Text.getLast?_of_getLast?_pieces hchars ?_
    have hlast := congrArg List.getLast? hnames
    rw [List.getLast?_append_cons, List.getLast?_map] at hlast
    obtain ⟨last, hslash⟩ := Option.isSome_iff_exists.1 (List.getLast?_isSome.2 hne)
    have hempty := hslashes last (List.mem_of_getLast? hslash)
    rw [List.getLast?_cons, hslash, hempty, Option.getD_some] at hlast
    obtain ⟨piece, hpiece, hnil⟩ := Option.map_eq_some_iff.1 hlast
    rw [hpiece, String.ofList_eq_empty_iff.1 hnil]
  unfold start at hstart
  split at hstart
  next rest hchars =>
    obtain ⟨-, hnames⟩ := Prod.mk.inj hstart
    rw [hchars]
    by_cases hrest : rest = []
    · rw [hrest]; rfl
    · rw [List.getLast?_cons, hpieces rest hrest hnames, Option.getD_some]
  next chars hchars =>
    obtain ⟨-, hnames⟩ := Prod.mk.inj hstart
    refine hpieces path.toList ?_ hnames
    intro hempty
    rw [String.toList_eq_nil_iff] at hempty
    simp [checkPath, hempty] at hpath

/-- A path leads to what was put where it points. -/
theorem place_of_lastName (hlast : files.lastName path = .ok (parent, name))
    (hdot : name ≠ ".") (hup : name ≠ "..") (hname : checkName name = .ok ())
    (hretains : files.Retains after)
    (hthere : after.entry? (parent.child name) = some .directory ∨
      path.toList.getLast? ≠ some '/') : after.place path = .ok (parent.child name) := by
  obtain ⟨hpath, hempty, hparent, base, front, slashes, hstart, hfront, hslashes⟩ :=
    lastName_eq_ok hlast hdot
  refine (place_eq_ok ((hretains.start_eq path).trans hstart)).2 ⟨hpath, ?_⟩
  refine follow_append_eq_ok.2 ⟨parent, hretains.follow hfront, ?_⟩
  refine follow_cons_eq_ok.2 ⟨hretains.directory parent hparent, parent.child name, ?_,
    .inr (.inr ⟨rfl, hname, hempty, hdot, hup⟩)⟩
  by_cases hnone : slashes = []
  · rw [hnone]
    rfl
  · have hslash := getLast?_of_slashes hpath hstart hslashes hnone
    exact follow_slashes (hthere.resolve_right fun hne => hne hslash) hslashes

theorem retains_put {place : Place} {entry : FileEntry} (htop : place ≠ .top)
    (h : files.entry? place ≠ some .directory) : files.Retains (files.put place entry) := by
  refine ⟨rfl, fun other hother => ?_⟩
  have hne : other ≠ place := fun e => h (e ▸ hother)
  rw [entryAt_put htop, if_neg hne, hother]

/-- Making a directory puts one where nothing was. -/
theorem makeDirectory_eq_ok (h : files.makeDirectory path = .ok changed) :
    ∃ place, place ≠ .top ∧ files.entry? place = none ∧ changed = files.put place .directory ∧
      changed.place path = .ok place := by
  obtain ⟨⟨parent, name⟩, hlast, hrest⟩ := Except.bind_eq_ok.1 h
  obtain ⟨hname, hput⟩ := Except.bind_unit_eq_ok.1 hrest
  split at hput
  next => cases hput
  next hnew =>
    simp only [Bool.or_eq_true, decide_eq_true_eq, not_or, Bool.not_eq_true,
      Option.isSome_eq_false_iff, Option.isNone_iff_eq_none] at hnew
    obtain ⟨⟨hdot, hup⟩, hnone⟩ := hnew
    obtain rfl := Except.pure_eq_ok.1 hput
    have htop := Place.child_ne_top parent name
    have hretains : files.Retains (files.put (parent.child name) .directory) :=
      retains_put htop fun hdirectory => by simp [hnone] at hdirectory
    refine ⟨parent.child name, htop, hnone, rfl, place_of_lastName hlast hdot hup hname hretains ?_⟩
    exact .inl (by rw [entryAt_put htop, if_pos rfl])

/-- Writing a file puts it where its path leads then, and where no directory was. -/
theorem writeText_eq_ok {text : String} (h : files.writeText path text = .ok changed) :
    ∃ place, place ≠ .top ∧ files.entry? place ≠ some .directory ∧
      changed = files.put place (.file text.toUTF8) ∧ changed.place path = .ok place := by
  obtain ⟨⟨parent, name⟩, hlast, hrest⟩ := Except.bind_eq_ok.1 h
  dsimp only at hrest
  split at hrest
  next => cases hrest
  next hfile =>
    simp only [Bool.or_eq_true, decide_eq_true_eq, not_or] at hfile
    obtain ⟨⟨hslash, hdot⟩, hup⟩ := hfile
    obtain ⟨hname, hput⟩ := Except.bind_unit_eq_ok.1 hrest
    split at hput
    next => cases hput
    next hnew =>
      obtain rfl := Except.pure_eq_ok.1 hput
      have htop := Place.child_ne_top parent name
      have hnone : files.entry? (parent.child name) ≠ some .directory :=
        fun hdirectory => hnew (by rw [hdirectory]; rfl)
      refine ⟨parent.child name, htop, hnone, rfl, ?_⟩
      exact place_of_lastName hlast hdot hup hname (retains_put htop hnone) (.inr hslash)

theorem readText_put {place : Place} {text : String} (htop : place ≠ .top)
    (hplace : (files.put place (.file text.toUTF8)).place path = .ok place) :
    (files.put place (.file text.toUTF8)).readText path = .ok text := by
  have htext : String.fromUTF8? text.toUTF8 = some text := dif_pos text.isValidUTF8
  have hbytes : (files.put place (.file text.toUTF8)).readBytes path = .ok text.toUTF8 := by
    refine Except.bind_eq_ok.2 ⟨place, hplace, ?_⟩
    rw [entryAt_put htop, if_pos rfl]
    rfl
  refine Except.bind_eq_ok.2 ⟨text.toUTF8, hbytes, ?_⟩
  rw [htext]
  rfl

end FileSystem

/-- The directories that a path is in. -/
def FilePath.Above (above path : String) : Prop :=
  Relation.TransGen (fun inner outer => parent? inner = some outer) path above

namespace FileSystem

/-- Nothing has changed but that directories are where nothing was, and where some paths lead. -/
structure Opens (wanted : String → Prop) (files after : FileSystem) : Prop where
  workingDirectory : after.workingDirectory = files.workingDirectory
  entry : ∀ place, after.entry? place = files.entry? place ∨
    files.entry? place = none ∧ after.entry? place = some .directory ∧
      ∃ path, wanted path ∧ after.place path = .ok place

theorem Opens.refl (wanted : String → Prop) (files : FileSystem) : Opens wanted files files :=
  ⟨rfl, fun _ => .inl rfl⟩

theorem Opens.retains {wanted : String → Prop} (h : Opens wanted files after) :
    files.Retains after := by
  refine ⟨h.workingDirectory, fun place hplace => ?_⟩
  rcases h.entry place with hsame | ⟨-, hnew, -⟩
  · rw [hsame, hplace]
  · exact hnew

theorem Opens.mono {wanted more : String → Prop} (hmore : ∀ path, wanted path → more path)
    (h : Opens wanted files after) : Opens more files after := by
  refine ⟨h.workingDirectory, fun place => (h.entry place).imp_right ?_⟩
  rintro ⟨hnone, hnew, path, hpath, hplace⟩
  exact ⟨hnone, hnew, path, hmore path hpath, hplace⟩

theorem Opens.trans {wanted : String → Prop} (hfirst : Opens wanted files changed)
    (hsecond : Opens wanted changed after) : Opens wanted files after := by
  refine ⟨hsecond.workingDirectory.trans hfirst.workingDirectory, fun place => ?_⟩
  rcases hsecond.entry place with hsame | ⟨hnone, hnew, path, hpath, hplace⟩
  · rw [hsame]
    refine (hfirst.entry place).imp_right ?_
    rintro ⟨hnone, hnew, path, hpath, hplace⟩
    exact ⟨hnone, hnew, path, hpath, hsecond.retains.place hplace⟩
  · refine .inr ⟨?_, hnew, path, hpath, hplace⟩
    rcases hfirst.entry place with hold | ⟨hold, -, -⟩
    · rw [← hold, hnone]
    · exact hold

theorem bind_apply {α β : Type} (first : StateM FileSystem α) (next : α → StateM FileSystem β)
    (files : FileSystem) : (first >>= next) files = next (first files).1 (first files).2 := rfl

theorem opens_makeDirectory {wanted : String → Prop} (hpath : wanted path) (files : FileSystem) :
    Opens wanted files (store.makeDirectory path files).2 := by
  have hok : ∀ changed, files.makeDirectory path = .ok changed → Opens wanted files changed := by
    intro changed hmake
    obtain ⟨place, htop, hnone, rfl, hplace⟩ := makeDirectory_eq_ok hmake
    refine ⟨rfl, fun other => ?_⟩
    rw [entryAt_put htop]
    split
    next hother =>
      subst hother
      exact .inr ⟨hnone, rfl, path, hpath, hplace⟩
    next => exact .inl rfl
  show Opens wanted files (commit (·.makeDirectory path) files).2
  unfold commit
  split
  next changed hmake => exact hok changed hmake
  next => exact Opens.refl wanted files

theorem ensureDirectory_snd (path : String) (files : FileSystem) :
    (store.ensureDirectory path files).2 = (store.makeDirectory path files).2 := by
  unfold FileStore.ensureDirectory
  rw [bind_apply]
  cases (store.makeDirectory path files).1 with
  | ok made => rfl
  | error fault =>
    dsimp only
    rw [bind_apply]
    split <;> rfl

/-- Making a directory and those on the way makes no others. -/
theorem opens_makeDirectories (fuel : Nat) (path : String) (files : FileSystem) :
    Opens (fun above => above = path ∨ FilePath.Above above path) files
      (store.makeDirectories fuel path files).2 := by
  induction fuel generalizing path files with
  | zero => exact Opens.refl _ files
  | succ fuel ih =>
    have hensure : ∀ files, Opens (fun above => above = path ∨ FilePath.Above above path) files
        (store.ensureDirectory path files).2 :=
      fun files => ensureDirectory_snd path files ▸ opens_makeDirectory (.inl rfl) files
    unfold FileStore.makeDirectories
    split
    next => exact Opens.refl _ files
    rw [bind_apply]
    have hfirst := hensure files
    cases hmade : (store.ensureDirectory path files).1 with
    | ok made => exact hfirst
    | error fault =>
      by_cases hmissing : fault = .notFound
      · subst hmissing
        cases hparent : FilePath.parent? path with
        | none => exact hfirst
        | some parent =>
          have habove : ∀ above, above = parent ∨ FilePath.Above above parent →
              FilePath.Above above path := by
            rintro above (rfl | hfurther)
            · exact .single hparent
            · exact .head hparent hfurther
          refine hfirst.trans ?_
          dsimp only
          rw [bind_apply]
          refine ((ih parent _).mono fun above h => Or.inr (habove above h)).trans ?_
          cases (store.makeDirectories fuel parent (store.ensureDirectory path files).2).1 with
          | ok made => exact hensure _
          | error fault => exact Opens.refl _ _
      · cases fault <;> first | exact absurd rfl hmissing | exact hfirst

/-- A file was written, and directories above it were made where nothing was. -/
def Wrote (path text : String) (files after : FileSystem) : Prop :=
  after.readText path = .ok text ∧
    ∃ target, after.place path = .ok target ∧
      ∀ place, place ≠ target → after.entry? place = files.entry? place ∨
        files.entry? place = none ∧ after.entry? place = some .directory ∧
          ∃ above, FilePath.Above above path ∧ after.place above = .ok place

/-- A document that is written is what its file holds then. -/
theorem wrote_writeDocument {doc : Document} {format : Format}
    (h : store.writeDocument doc path format files = (.ok (), after)) :
    Wrote path (doc.render format) files after := by
  have hopens : Opens (FilePath.Above · path) files (store.makeDirectories
      (((FilePath.parent? path).getD "").length + 1) ((FilePath.parent? path).getD "") files).2 := by
    cases hparent : FilePath.parent? path with
    | none => exact Opens.refl _ files
    | some parent =>
      refine (opens_makeDirectories _ parent files).mono ?_
      rintro above (rfl | hfurther)
      · exact .single hparent
      · exact .head hparent hfurther
  unfold FileStore.writeDocument at h
  rw [bind_apply] at h
  revert h hopens
  generalize (store.makeDirectories (((FilePath.parent? path).getD "").length + 1)
    ((FilePath.parent? path).getD "") files) = made
  obtain ⟨result, opened⟩ := made
  intro h hopens
  cases result with
  | error fault => cases h
  | ok made =>
    dsimp only at h hopens
    rw [bind_apply] at h
    have hwrite : store.write path (doc.render format) opened =
        commit (·.writeText path (doc.render format)) opened := rfl
    rw [hwrite, commit] at h
    cases hwritten : opened.writeText path (doc.render format) with
    | error fault => rw [hwritten] at h; cases h
    | ok changed =>
      rw [hwritten] at h
      obtain rfl : changed = after := congrArg Prod.snd h
      obtain ⟨place, htop, hnone, rfl, hplace⟩ := writeText_eq_ok hwritten
      refine ⟨readText_put htop hplace, place, hplace, fun other hother => ?_⟩
      rw [entryAt_put htop, if_neg hother]
      refine (hopens.entry other).imp_right ?_
      rintro ⟨hmissing, hnew, above, habove, hleads⟩
      exact ⟨hmissing, hnew, above, habove, (retains_put htop hnone).place hleads⟩

end FileSystem
end ApiTidy
