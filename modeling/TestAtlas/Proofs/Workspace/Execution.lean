import TestAtlas.Proofs.Workspace.Consistency

/-!
# Calls run to their end

Here a call on a store is taken apart into its steps.  To make directories it climbs from a location
to the first directory at or above it, and each listing that is changed and each file that is erased
has to be there.  In a store that was filled from nothing every climb comes to an end and nothing is
missed, so each call can be executed, in one way only, and does what the operation of that name
does: `IsClosed.executes_iff`.  What the calls change and what they leave alone is put together in
`IsReliable`, and the main statement is `isReliable_afterAll`.
-/

namespace TestAtlas.FileStore

open TestAtlas.Path

/-! ## Calls, step by step -/

/-- A call on a store: one that changes it, or one that reads. -/
inductive Call where
  | change (operation : Operation)
  | readContent (path : String)
  | readDirectory (path : String)
  deriving DecidableEq, Repr

/-- What a call gives that is not refused. -/
inductive Reply where
  | done
  | content (content : String)
  | listing (entries : List Entry)
  deriving DecidableEq, Repr

/-- A step of a change. -/
inductive Update where
  /-- A location is put into the listing of the directory above it. -/
  | list (location : String) (type : EntryType)
  /-- A location is taken out of the listing of the directory above it. -/
  | unlist (location : String)
  /-- A directory is there, with nothing in it. -/
  | found (directory : String)
  | store (location content : String)
  | erase (location : String)
  | dropSubtree (directory : String)
  deriving DecidableEq, Repr

/-- Changes the listing of a directory, which has to be there. -/
def changeListing? (s : FileStore) (directory : String)
    (change : Keyed String EntryType → Keyed String EntryType) : Option FileStore :=
  (s.directories.get? directory).map fun listing =>
    { s with directories := s.directories.insert directory (change listing) }

namespace Update

/-- The store after a step, unless a listing or a file is missed. -/
def perform? (s : FileStore) : Update → Option FileStore
  | list location type =>
    s.changeListing? (directoryPart location) fun listing =>
      listing.insert (lastPart location) type
  | unlist location =>
    s.changeListing? (directoryPart location) fun listing => listing.erase (lastPart location)
  | found directory => some { s with directories := s.directories.insert directory Keyed.empty }
  | store location content => some { s with files := s.files.insert location content }
  | erase location =>
    if s.files.contains location then some { s with files := s.files.erase location } else none
  | dropSubtree directory => some (s.dropSubtree directory)

/-- The store after several steps. -/
def performAll? (s : FileStore) : List Update → Option FileStore
  | [] => some s
  | u :: us => (u.perform? s).bind fun s' => performAll? s' us

/-- The steps that make directories.  The lowest directory comes first, and is made last. -/
def making (directories : List String) : List Update :=
  directories.reverse.flatMap fun d => [.list d .directory, .found d]

end Update

/-- The climb from a location to the first directory at or above it, with the locations that are
passed on the way. -/
inductive Climbs (s : FileStore) : String → List String → Prop
  | stop {p : String} : s.isDirectory p = true → Climbs s p []
  | pass {p : String} {passed : List String} : s.isDirectory p = false →
      Climbs s (directoryPart p) passed → Climbs s p (p :: passed)

/-- The answer to a removal, and its steps. -/
def removal (s : FileStore) (cwd path : String) : Except FileError Reply × List Update :=
  let location := canonical cwd path
  if s.files.contains location then (.ok .done, [.erase location, .unlist location])
  else if s.isDirectory location && location != "/" then
    (.ok .done, [.dropSubtree location, .unlist location])
  else (.error (.notFound path), [])

/-- A call comes to its end with an answer, and leaves a store behind. -/
inductive Executes (cwd : String) (s : FileStore) :
    Call → Except FileError Reply → FileStore → Prop
  | write {path content : String} {passed : List String} {s' : FileStore} :
      s.Climbs (directoryPart (canonical cwd path)) passed →
      Update.performAll? s (Update.making passed ++
        [.list (canonical cwd path) .file, .store (canonical cwd path) content]) = some s' →
      Executes cwd s (.change (.write path content)) (.ok .done) s'
  | makeDirectories {path : String} {passed : List String} {s' : FileStore} :
      s.Climbs (canonical cwd path) passed →
      Update.performAll? s (Update.making passed) = some s' →
      Executes cwd s (.change (.makeDirectories path)) (.ok .done) s'
  | remove {path : String} {s' : FileStore} :
      Update.performAll? s (s.removal cwd path).2 = some s' →
      Executes cwd s (.change (.remove path)) (s.removal cwd path).1 s'
  | readContent (path : String) :
      Executes cwd s (.readContent path) ((s.readContent cwd path).map .content) s
  | readDirectory (path : String) :
      Executes cwd s (.readDirectory path) ((s.readDirectory cwd path).map .listing) s

/-- Calls are executed, one after another. -/
inductive ExecutesAll (cwd : String) : FileStore → List Call → FileStore → Prop
  | nil (s : FileStore) : ExecutesAll cwd s [] s
  | cons {s s' s'' : FileStore} {c : Call} {cs : List Call} {reply : Except FileError Reply} :
      s.Executes cwd c reply s' → ExecutesAll cwd s' cs s'' → ExecutesAll cwd s (c :: cs) s''

namespace Call

/-- The path that a call is given. -/
def path : Call → String
  | change (.write path _) => path
  | change (.makeDirectories path) => path
  | change (.remove path) => path
  | readContent path => path
  | readDirectory path => path

/-- What the operations of the store answer. -/
def answer (cwd : String) (s : FileStore) : Call → Except FileError Reply
  | change (.write _ _) => .ok .done
  | change (.makeDirectories _) => .ok .done
  | change (.remove path) => (s.remove cwd path).map fun _ => .done
  | readContent path => (s.readContent cwd path).map .content
  | readDirectory path => (s.readDirectory cwd path).map .listing

/-- The store after a call. -/
def after (cwd : String) (s : FileStore) : Call → FileStore
  | change operation => operation.apply cwd s
  | readContent _ => s
  | readDirectory _ => s

/-- The store after several calls. -/
def afterAll (cwd : String) (s : FileStore) (calls : List Call) : FileStore :=
  calls.foldl (fun s c => c.after cwd s) s

end Call

variable {cwd : String} {s : FileStore}

/-! ## Nothing is missed -/

namespace Update

theorem performAll?_append (s : FileStore) (us vs : List Update) :
    performAll? s (us ++ vs) = (performAll? s us).bind fun s' => performAll? s' vs := by
  induction us generalizing s with
  | nil => rfl
  | cons u us ih =>
      rw [List.cons_append, performAll?, performAll?, Option.bind_assoc]
      exact Option.bind_congr fun s' _ => ih s'

theorem making_cons (d : String) (ds : List String) :
    making (d :: ds) = making ds ++ [.list d .directory, .found d] := by
  simp [making]

end Update

/-- A listing that is there can be changed. -/
theorem changeListing?_eq {d : String} (h : s.isDirectory d = true)
    (change : Keyed String EntryType → Keyed String EntryType) :
    s.changeListing? d change = some (s.changeListing d change) := by
  rw [isDirectory, Keyed.contains, Option.isSome_iff_exists] at h
  obtain ⟨listing, hlisting⟩ := h
  simp only [changeListing?, changeListing, hlisting, Option.map_some]

theorem Climbs.unique {p : String} {ps qs : List String} (hps : s.Climbs p ps)
    (hqs : s.Climbs p qs) : ps = qs := by
  induction hps generalizing qs with
  | stop hthere =>
      cases hqs with
      | stop => rfl
      | pass hnot => exact absurd (hthere.symm.trans hnot) (by decide)
  | pass hnot _ ih =>
      cases hqs with
      | stop hthere => exact absurd (hthere.symm.trans hnot) (by decide)
      | pass _ hrest => rw [ih hrest]

namespace IsClosed

/-- The climb comes to an end, since the root is a directory. -/
theorem climbs (h : s.IsClosed) {p : String} (hp : IsLocation p) :
    s.Climbs p (s.missingDirectories p) := by
  induction hp using IsLocation.below_induction with
  | root =>
      rw [missingDirectories_of_isDirectory isLocation_root h.root]
      exact .stop h.root
  | step d name hd hname ih =>
      by_cases hthere : s.isDirectory (below d name) = true
      · rw [missingDirectories_of_isDirectory (hd.below hname) hthere]
        exact .stop hthere
      · rw [Bool.not_eq_true] at hthere
        rw [missingDirectories_below hd hname hthere]
        refine .pass hthere ?_
        rwa [directoryPart_below hd hname]

/-- Each directory that is made finds the listing of the one above it, which was made before. -/
theorem performAll?_making (h : s.IsClosed) {p : String} (hp : IsLocation p) :
    Update.performAll? s (Update.making (s.missingDirectories p)) =
      some (s.makeDirectoriesAt p) := by
  induction hp using IsLocation.below_induction with
  | root =>
      rw [missingDirectories_of_isDirectory isLocation_root h.root,
        makeDirectoriesAt_of_isDirectory isLocation_root h.root]
      rfl
  | step d name hd hname ih =>
      by_cases hthere : s.isDirectory (below d name) = true
      · rw [missingDirectories_of_isDirectory (hd.below hname) hthere,
          makeDirectoriesAt_of_isDirectory (hd.below hname) hthere]
        rfl
      · rw [Bool.not_eq_true] at hthere
        have hup : (s.makeDirectoriesAt d).isDirectory (directoryPart (below d name)) = true := by
          rw [directoryPart_below hd hname]
          exact h.isDirectory_made hd
        rw [missingDirectories_below hd hname hthere, makeDirectoriesAt_below hd hname hthere,
          Update.making_cons, Update.performAll?_append, ih, Option.bind_some, Update.performAll?,
          Update.perform?, changeListing?_eq hup]
        rfl

/-! ### The calls that change a store -/

theorem performAll?_writing (h : s.IsClosed) {p : String} (hp : IsLocation p) (content : String) :
    Update.performAll? s (Update.making (s.missingDirectories (directoryPart p)) ++
      [.list p .file, .store p content]) = some (s.writeAt p content) := by
  have hdir := isLocation_directoryPart hp
  rw [Update.performAll?_append, h.performAll?_making hdir, Option.bind_some, Update.performAll?,
    Update.perform?, changeListing?_eq (h.isDirectory_made hdir)]
  rfl

/-- What is removed stands in a directory that is still there when it is taken out of the
listing. -/
theorem performAll?_removal (h : s.IsClosed) (hcwd : isRooted cwd.toList = true) (path : String) :
    (s.removal cwd path).1 = (s.remove cwd path).map (fun _ => .done) ∧
      Update.performAll? s (s.removal cwd path).2 = some ((Operation.remove path).apply cwd s) := by
  have hp := isLocation_canonical hcwd path
  simp only [removal, Operation.apply, FileStore.remove]
  generalize canonical cwd path = p at hp
  cases hfile : s.files.contains p with
  | true =>
      have hup : (FileStore.mk s.directories (s.files.erase p)).isDirectory (directoryPart p) =
          true := (h.files p hfile).2
      simp only [if_true, Except.map, Update.performAll?, Update.perform?, hfile, Option.bind_some,
        changeListing?_eq hup]
      exact ⟨trivial, rfl⟩
  | false =>
      cases hdirectory : s.isDirectory p && p != "/" with
      | true =>
          obtain ⟨hthere, hroot⟩ := Bool.and_eq_true_iff.mp hdirectory
          rw [bne_iff_ne] at hroot
          have hup : (s.dropSubtree p).isDirectory (directoryPart p) = true := by
            rw [isDirectory_dropSubtree hp hroot, (h.directories p hthere).2,
              isAtOrBelow_directoryPart_eq_false hp hroot]
            rfl
          simp only [Bool.false_eq_true, if_false, if_true, Except.map, Update.performAll?,
            Update.perform?, Option.bind_some, changeListing?_eq hup]
          exact ⟨trivial, rfl⟩
      | false =>
          simp only [Bool.false_eq_true, if_false, Except.map, Update.performAll?]
          exact ⟨trivial, trivial⟩

/-- A call can be executed in one way only, and does what the operation of its name does. -/
theorem executes_iff (h : s.IsClosed) (hcwd : isRooted cwd.toList = true) {c : Call}
    {reply : Except FileError Reply} {s' : FileStore} :
    s.Executes cwd c reply s' ↔ reply = c.answer cwd s ∧ s' = c.after cwd s := by
  constructor
  · intro hexecutes
    cases hexecutes with
    | @write path content passed _ hclimb hdone =>
        have hp := isLocation_canonical hcwd path
        have hdir := isLocation_directoryPart hp
        rw [hclimb.unique (h.climbs hdir), h.performAll?_writing hp] at hdone
        exact ⟨rfl, (Option.some.inj hdone).symm⟩
    | @makeDirectories path passed _ hclimb hdone =>
        have hp := isLocation_canonical hcwd path
        rw [hclimb.unique (h.climbs hp), h.performAll?_making hp] at hdone
        exact ⟨rfl, (Option.some.inj hdone).symm⟩
    | @remove path _ hdone =>
        obtain ⟨hreply, hall⟩ := h.performAll?_removal hcwd path
        rw [hall] at hdone
        exact ⟨hreply, (Option.some.inj hdone).symm⟩
    | readContent path => exact ⟨rfl, rfl⟩
    | readDirectory path => exact ⟨rfl, rfl⟩
  · rintro ⟨rfl, rfl⟩
    cases c with
    | readContent path => exact .readContent path
    | readDirectory path => exact .readDirectory path
    | change operation =>
        cases operation with
        | write path content =>
            have hp := isLocation_canonical hcwd path
            exact .write (h.climbs (isLocation_directoryPart hp)) (h.performAll?_writing hp content)
        | makeDirectories path =>
            have hp := isLocation_canonical hcwd path
            exact .makeDirectories (h.climbs hp) (h.performAll?_making hp)
        | remove path =>
            obtain ⟨hreply, hall⟩ := h.performAll?_removal hcwd path
            have hexecutes := Executes.remove hall
            rwa [hreply] at hexecutes

theorem after (h : s.IsClosed) (hcwd : isRooted cwd.toList = true) (c : Call) :
    (c.after cwd s).IsClosed := by
  cases c with
  | readContent path => exact h
  | readDirectory path => exact h
  | change operation =>
      cases operation with
      | write path content => exact h.writeAt (isLocation_canonical hcwd path) content
      | makeDirectories path => exact h.makeDirectoriesAt (isLocation_canonical hcwd path)
      | remove path =>
          simp only [Call.after, Operation.apply]
          cases hremove : s.remove cwd path with
          | ok s' => exact h.remove hcwd hremove
          | error e => exact h

theorem executesAll_iff (h : s.IsClosed) (hcwd : isRooted cwd.toList = true) (calls : List Call)
    {s' : FileStore} : s.ExecutesAll cwd calls s' ↔ s' = Call.afterAll cwd s calls := by
  induction calls generalizing s with
  | nil =>
      constructor
      · rintro ⟨⟩
        rfl
      · rintro rfl
        exact .nil _
  | cons c calls ih =>
      constructor
      · rintro (_ | ⟨hfirst, hrest⟩)
        obtain ⟨-, rfl⟩ := (h.executes_iff hcwd).mp hfirst
        exact (ih (h.after hcwd c)).mp hrest
      · rintro rfl
        exact .cons ((h.executes_iff hcwd).mpr ⟨rfl, rfl⟩) ((ih (h.after hcwd c)).mpr rfl)

theorem afterAll (h : s.IsClosed) (hcwd : isRooted cwd.toList = true) (calls : List Call) :
    (Call.afterAll cwd s calls).IsClosed := by
  induction calls generalizing s with
  | nil => exact h
  | cons c calls ih => exact ih (h.after hcwd c)

end IsClosed

/-! ## What can be read -/

theorem readContent_of_files_eq {s s' : FileStore} (h : s'.files = s.files) (path : String) :
    s'.readContent cwd path = s.readContent cwd path := by
  rw [readContent, readContent, h]

theorem readContent_write (cwd : String) (s : FileStore) (path content other : String) :
    (s.write cwd path content).readContent cwd other =
      if canonical cwd other = canonical cwd path then .ok content
      else s.readContent cwd other := by
  simp only [readContent, write, files_writeAt, Keyed.get?_insert]
  by_cases hsame : canonical cwd other = canonical cwd path
  · rw [if_pos hsame, if_pos hsame]
  · rw [if_neg hsame, if_neg hsame]

/-- What is removed can be read no more, and all that is not at or below it reads as before. -/
theorem readContent_remove {s' : FileStore} {path : String} (hcwd : isRooted cwd.toList = true)
    (h : s.remove cwd path = .ok s') :
    s'.readContent cwd path = .error (.notFound path) ∧
      ∀ other, isWithin cwd other path = false →
        s'.readContent cwd other = s.readContent cwd other := by
  have hp := isLocation_canonical hcwd path
  simp only [readContent, isWithin]
  rcases remove_cases h with ⟨-, rfl⟩ | ⟨hfile, -, hroot, rfl⟩
  · simp only [files_unlist, Keyed.get?_erase]
    refine ⟨rfl, ?_⟩
    intro other hout
    have hne : canonical cwd other ≠ canonical cwd path := by
      intro heq
      rw [heq, isAtOrBelow_refl] at hout
      exact absurd hout (by decide)
    rw [if_neg hne]
  · rw [files_unlist]
    constructor
    · have hgone := contains_dropSubtree (p := canonical cwd path) hp hroot hfile
      rw [hfile, Bool.false_and, Keyed.contains, Option.isSome_eq_false_iff,
        Option.isNone_iff_eq_none] at hgone
      rw [hgone]
    · intro other hout
      have hinside : isInside (canonical cwd path) (canonical cwd other) = false := by
        rw [← isInside_or_eq hp hroot, Bool.or_eq_false_iff] at hout
        exact hout.2
      rw [dropSubtree, Keyed.get?_filter_key _ fun q => !isInside (canonical cwd path) q, hinside]
      rfl

/-! ## Stores that can be relied upon -/

/-- Every call on the store comes to its end, and what it changes is known. -/
structure IsReliable (cwd : String) (s : FileStore) : Prop where
  closed : s.IsClosed
  /-- No call runs on without end or misses what it looks up, and each has one outcome. -/
  completes : ∀ c reply s',
    s.Executes cwd c reply s' ↔ reply = c.answer cwd s ∧ s' = c.after cwd s
  /-- A call that is refused names its path, and changes nothing. -/
  refused : ∀ c e s', s.Executes cwd c (.error e) s' →
    (e = .notFound c.path ∨ e = .notADirectory c.path) ∧ s' = s
  /-- What was written is read at its place, and anywhere else what was read before. -/
  written : ∀ path content reply s', s.Executes cwd (.change (.write path content)) reply s' →
    reply = .ok .done ∧ ∀ other, s'.readContent cwd other =
      if canonical cwd other = canonical cwd path then .ok content else s.readContent cwd other
  made : ∀ path reply s', s.Executes cwd (.change (.makeDirectories path)) reply s' →
    reply = .ok .done ∧ s'.isDirectory (canonical cwd path) = true ∧
      ∀ other, s'.readContent cwd other = s.readContent cwd other
  removed : ∀ path s', s.Executes cwd (.change (.remove path)) (.ok .done) s' →
    s'.readContent cwd path = .error (.notFound path) ∧
      ∀ other, isWithin cwd other path = false →
        s'.readContent cwd other = s.readContent cwd other

/-! ### What is refused -/

theorem eq_of_remove_error {path : String} {e : FileError} (h : s.remove cwd path = .error e) :
    e = .notFound path := by
  unfold remove at h
  simp only at h
  split at h
  · exact absurd h (by simp)
  · split at h
    · exact absurd h (by simp)
    · exact (Except.error.inj h).symm

theorem eq_of_readContent_error {path : String} {e : FileError}
    (h : s.readContent cwd path = .error e) : e = .notFound path := by
  unfold readContent at h
  split at h
  · exact absurd h (by simp)
  · exact (Except.error.inj h).symm

theorem eq_of_readDirectory_error {path : String} {e : FileError}
    (h : s.readDirectory cwd path = .error e) : e = .notFound path ∨ e = .notADirectory path := by
  unfold readDirectory at h
  simp only at h
  split at h
  · exact Or.inr (Except.error.inj h).symm
  · split at h
    · exact absurd h (by simp)
    · exact Or.inl (Except.error.inj h).symm

theorem eq_error_of_map {α β : Type} {f : α → β} {x : Except FileError α} {e : FileError}
    (h : x.map f = .error e) : x = .error e := by
  cases x with
  | ok a => exact absurd h (by simp [Except.map])
  | error e' => exact congrArg Except.error (Except.error.inj h)

/-- A call that is refused names its path, and changes nothing. -/
theorem Call.eq_of_answer_error {c : Call} {e : FileError} (h : c.answer cwd s = .error e) :
    (e = .notFound c.path ∨ e = .notADirectory c.path) ∧ c.after cwd s = s := by
  cases c with
  | change operation =>
      cases operation with
      | write path content => exact absurd h (by simp [answer])
      | makeDirectories path => exact absurd h (by simp [answer])
      | remove path =>
          have hremove := eq_error_of_map h
          refine ⟨Or.inl (eq_of_remove_error hremove), ?_⟩
          simp only [after, Operation.apply, hremove]
  | readContent path => exact ⟨Or.inl (eq_of_readContent_error (eq_error_of_map h)), rfl⟩
  | readDirectory path => exact ⟨eq_of_readDirectory_error (eq_error_of_map h), rfl⟩

theorem IsClosed.isReliable (h : s.IsClosed) (hcwd : isRooted cwd.toList = true) :
    s.IsReliable cwd where
  closed := h
  completes := fun _ _ _ => h.executes_iff hcwd
  refused := by
    intro c e s' hexecutes
    obtain ⟨hreply, rfl⟩ := (h.executes_iff hcwd).mp hexecutes
    exact Call.eq_of_answer_error hreply.symm
  written := by
    intro path content reply s' hexecutes
    obtain ⟨hreply, hafter⟩ := (h.executes_iff hcwd).mp hexecutes
    rw [Call.after, Operation.apply] at hafter
    rw [hafter]
    exact ⟨hreply, readContent_write cwd s path content⟩
  made := by
    intro path reply s' hexecutes
    obtain ⟨hreply, hafter⟩ := (h.executes_iff hcwd).mp hexecutes
    rw [Call.after, Operation.apply, FileStore.makeDirectories] at hafter
    rw [hafter]
    exact ⟨hreply, h.isDirectory_made (isLocation_canonical hcwd path),
      readContent_of_files_eq (files_makeDirectoriesAt s _)⟩
  removed := by
    intro path s' hexecutes
    obtain ⟨hreply, rfl⟩ := (h.executes_iff hcwd).mp hexecutes
    simp only [Call.answer, Call.after, Operation.apply] at hreply ⊢
    cases hremove : s.remove cwd path with
    | error e =>
        rw [hremove] at hreply
        exact absurd hreply (by simp [Except.map])
    | ok s' => exact readContent_remove hcwd hremove

/-- However a store is filled from nothing, by calls with any paths, all of them can be executed
to their end, in one way, and the store that they leave can be relied upon. -/
theorem isReliable_afterAll (hcwd : isRooted cwd.toList = true) (calls : List Call) :
    (∀ s', ExecutesAll cwd .empty calls s' ↔ s' = Call.afterAll cwd .empty calls) ∧
      (Call.afterAll cwd .empty calls).IsReliable cwd :=
  ⟨fun _ => isClosed_empty.executesAll_iff hcwd calls,
    (isClosed_empty.afterAll hcwd calls).isReliable hcwd⟩

/-- A location is a directory first and then a file as well.  When the file was removed, what is in
the directory can still be read, and the directory is removed next. -/
theorem isReliable_afterAll_both :
    let calls : List Call := [.change (.write "/a/b" "x"), .change (.write "a" "y"),
      .readDirectory "/a", .change (.remove "/a/")]
    let s := Call.afterAll "/" .empty calls
    isRooted "/".toList = true ∧ ExecutesAll "/" .empty calls s ∧ s.IsReliable "/" ∧
      s.readContent "/" "/a/b" = .ok "x" ∧
      ∃ s', s.Executes "/" (.change (.remove "/a")) (.ok .done) s' := by
  intro calls s
  have hcwd : isRooted "/".toList = true := by decide
  obtain ⟨hexecutes, hreliable⟩ := isReliable_afterAll hcwd calls
  refine ⟨hcwd, (hexecutes s).mpr rfl, hreliable, by decide +kernel,
    (Operation.remove "/a").apply "/" s, ?_⟩
  exact (hreliable.completes _ _ _).mpr ⟨by decide +kernel, rfl⟩

end TestAtlas.FileStore
