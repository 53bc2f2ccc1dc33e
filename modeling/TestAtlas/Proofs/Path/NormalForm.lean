import TestAtlas.Proofs.Path.Descent

/-!
# The canonical form is a normal form

What a canonical location looks like is said of its characters (`IsNormal`), and what it stands for
is said by reading the segments of the spelling one after the other (`follow`).  The main statement
is `canonical_isNormalForm`: the texts that look canonical are those that the canonical form leaves
as they are, and those that it gives; its segments are what the reading of the spelling leads to;
and a canonical text is put together again from its directory and its last segment.
-/

namespace TestAtlas.Path

open Text

/-! ## What a canonical text looks like -/

/-- The text starts with exactly one slash and has no backslash; but for the slash alone, no segment
behind that slash is empty, `.` or `..`, and no slash ends the text. -/
structure IsNormal (path : String) : Prop where
  starts : ∃ rest, path.toList = '/' :: rest ∧ rest.head? ≠ some '/'
  no_backslash : '\\' ∉ path.toList
  names : path ≠ "/" → ∀ s ∈ (cut '/' path.toList).tail, s ≠ [] ∧ s ≠ ['.'] ∧ s ≠ ['.', '.']
  ends : path ≠ "/" → path.toList.getLast? ≠ some '/'

theorem IsLocation.isNormal {path : String} (h : IsLocation path) : IsNormal path := by
  obtain ⟨ss, hss, rfl⟩ := h
  have hroot : ss = [] → ofSegments ss = "/" := by
    rintro rfl
    exact ofSegments_nil
  refine ⟨⟨_, by rw [ofSegments, String.toList_ofList], ?_⟩, not_mem_toList_ofSegments hss, ?_, ?_⟩
  · rw [← dropWhile_join hss]
    intro hhead
    have hnot := List.head?_dropWhile_not (· == '/') (join ['/'] (ss.map String.toList))
    rw [hhead] at hnot
    exact absurd hnot (by simp)
  · intro hne s hs
    rw [cut_ofSegments hss, if_neg (fun hnil => hne (hroot hnil)), List.tail_cons] at hs
    obtain ⟨name, hname, rfl⟩ := List.mem_map.mp hs
    exact ⟨(hss name hname).ne_nil, (hss name hname).ne_dot, (hss name hname).ne_dots⟩
  · intro hne
    have hlast := getLast?_stem hss
    rwa [stem, if_neg (fun hnil => hne (hroot hnil))] at hlast

theorem IsNormal.isLocation {path : String} (h : IsNormal path) : IsLocation path := by
  by_cases hroot : path = "/"
  · rw [hroot]
    exact isLocation_root
  · obtain ⟨rest, hpath, -⟩ := h.starts
    have hnames := h.names hroot
    rw [hpath, cut_cons_self, List.tail_cons] at hnames
    refine ⟨(cut '/' rest).map String.ofList, ?_, ?_⟩
    · intro s hs
      obtain ⟨piece, hpiece, rfl⟩ := List.mem_map.mp hs
      obtain ⟨hne, hdot, hdots⟩ := hnames piece hpiece
      refine ⟨by simpa using hne, by simpa using hdot, by simpa using hdots, ?_, ?_⟩
      · simpa using not_mem_of_mem_cut hpiece
      · have hrest : '\\' ∉ rest := fun hmem => h.no_backslash (by simp [hpath, hmem])
        have hmem : ∀ c ∈ piece, c ∈ rest := fun c hc => by
          rw [← join_cut '/' rest]
          exact mem_join_of_mem hpiece hc
        simpa using fun hc => hrest (hmem _ hc)
    · apply String.toList_injective
      rw [hpath, ofSegments, String.toList_ofList, List.map_map]
      simp [Function.comp_def, join_cut]

/-! ## What a spelling leads to -/

/-- One more segment on the way from the root: empty and `.` lead nowhere, `..` leads back over the
last segment, of which the root has none, and a name leads on. -/
def follow (reached : List String) (segment : String) : List String :=
  if segment = "" ∨ segment = "." then reached
  else if segment = ".." then reached.dropLast
  else reached ++ [segment]

/-- The segments of a spelling as they are written, backslashes counting as slashes.  A path that
has neither a drive nor a slash in front continues the current directory. -/
def writtenSegments (cwd path : String) : List String :=
  let written := forwardSlashes path.toList
  let pieces :=
    if startsWithDrive written || isRooted written then cut '/' written
    else cut '/' cwd.toList ++ cut '/' written
  pieces.map String.ofList

/-- A step of the reduction is a step of the reading. -/
theorem follow_reverse {read : List (List Char)} (hread : ['.', '.'] ∉ read)
    (segment : List Char) :
    follow (read.reverse.map String.ofList) (String.ofList segment) =
        (pushSegment true read segment).reverse.map String.ofList ∧
      ['.', '.'] ∉ pushSegment true read segment := by
  have hempty : String.ofList segment = "" ↔ segment = [] := @String.ofList_inj segment []
  have hdot : String.ofList segment = "." ↔ segment = ['.'] := @String.ofList_inj segment ['.']
  have hdots : String.ofList segment = ".." ↔ segment = ['.', '.'] :=
    @String.ofList_inj segment ['.', '.']
  unfold follow pushSegment
  simp only [hempty, hdot, hdots, if_true]
  split
  · exact ⟨rfl, hread⟩
  · split
    · cases read with
      | nil => exact ⟨rfl, hread⟩
      | cons last before =>
          rw [List.mem_cons, not_or] at hread
          simp [Ne.symm hread.1, hread.2]
    · rename_i hname
      exact ⟨by simp, by simp [Ne.symm hname, hread]⟩

/-- Reducing the pieces of a rooted path is reading them one after the other. -/
theorem map_reduce (pieces : List (List Char)) :
    (reduce true pieces).map String.ofList = (pieces.map String.ofList).foldl follow [] := by
  have hfold : ∀ read : List (List Char), ['.', '.'] ∉ read →
      ((pieces.foldl (pushSegment true) read).reverse).map String.ofList =
        (pieces.map String.ofList).foldl follow (read.reverse.map String.ofList) := by
    induction pieces with
    | nil => exact fun read _ => rfl
    | cons segment pieces ih =>
        intro read hread
        obtain ⟨hstep, hdots⟩ := follow_reverse hread segment
        rw [List.foldl_cons, ih _ hdots, List.map_cons, List.foldl_cons, hstep]
  exact hfold [] (by simp)

theorem reduce_nil_cons (pieces : List (List Char)) :
    reduce true ([] :: pieces) = reduce true pieces := by
  rw [reduce, List.foldl_cons, pushSegment_of_empty, reduce]

/-- A rooted path without backslashes is normalized to a location, possibly with one more slash in
front. -/
theorem normalize_eq_ofSegments {path : List Char} (hrooted : isRooted path = true)
    (hback : '\\' ∉ path) :
    ∃ names : List String, (∀ s ∈ names, IsSegment s) ∧
      names.map String.toList = reduce true (cut '/' path) ∧
      (normalize path = (ofSegments names).toList ∨
        normalize path = '/' :: (ofSegments names).toList) := by
  refine ⟨(reduce true (cut '/' path)).map String.ofList, ?_, by simp [Function.comp_def], ?_⟩
  · intro s hs
    obtain ⟨piece, hpiece, rfl⟩ := List.mem_map.mp hs
    exact isSegment_of_mem_reduce hback hpiece
  · rw [normalize_of_isRooted hrooted]
    rcases rootSlashes_of_isRooted hrooted with hr | hr <;>
      simp [hr, ofSegments, Function.comp_def]

theorem not_mem_normalize {path : List Char} (hrooted : isRooted path = true)
    (hback : '\\' ∉ path) : '\\' ∉ normalize path := by
  obtain ⟨names, hnames, -, htext⟩ := normalize_eq_ofSegments hrooted hback
  have hnot := not_mem_toList_ofSegments hnames
  rcases htext with htext | htext <;> simp [htext, hnot]

/-- A path that is normalized again keeps its segments. -/
theorem reduce_cut_normalize {path : List Char} (hrooted : isRooted path = true)
    (hback : '\\' ∉ path) :
    reduce true (cut '/' (normalize path)) = reduce true (cut '/' path) := by
  obtain ⟨names, hnames, hpieces, htext⟩ := normalize_eq_ofSegments hrooted hback
  have hreduce : reduce true (cut '/' (ofSegments names).toList) = reduce true (cut '/' path) := by
    rw [cut_ofSegments hnames, reduce_of_segments hnames, hpieces]
  rcases htext with htext | htext
  · rw [htext, hreduce]
  · -- a second slash in front is one more empty piece
    rw [htext, cut_cons_self, reduce_nil_cons, hreduce]

/-- A relative path is read behind the directory that it continues. -/
theorem reduce_cut_fromDirectory {directory path : List Char} (hdirectory : directory ≠ [])
    (hpath : isRooted path = false) :
    reduce true (cut '/' (fromDirectory directory path)) =
      reduce true (cut '/' directory ++ cut '/' path) := by
  rw [fromDirectory, hpath, if_neg Bool.false_ne_true]
  split
  · rename_i hlast
    obtain ⟨before, rfl⟩ := List.getLast?_eq_some_iff.mp (hlast.resolve_left hdirectory)
    rw [List.append_assoc, List.singleton_append, cut_append_sep, cut_append_sep]
    simp [reduce, pushSegment_of_empty]
  · rw [cut_append_sep]

/-- The text that the canonical form is taken of, rooted and without backslashes, leads to the same
place as the spelling. -/
theorem canonicalChars_leads {cwd : List Char} (hcwd : isRooted cwd = true) (hback : '\\' ∉ cwd)
    (path : List Char) :
    ∃ anchored, isRooted anchored = true ∧ '\\' ∉ anchored ∧
      canonicalChars cwd path = '/' :: (normalize anchored).dropWhile (· == '/') ∧
      reduce true (cut '/' anchored) = reduce true
        (if startsWithDrive (forwardSlashes path) || isRooted (forwardSlashes path) then
          cut '/' (forwardSlashes path)
        else cut '/' cwd ++ cut '/' (forwardSlashes path)) := by
  have hforward := not_mem_forwardSlashes path
  unfold canonicalChars
  generalize forwardSlashes path = written at hforward ⊢
  by_cases hdrive : startsWithDrive written = true
  · refine ⟨'/' :: written, rfl, by simpa using hforward, by simp [hdrive], ?_⟩
    simp [hdrive, reduce_nil_cons]
  · rw [Bool.not_eq_true] at hdrive
    by_cases hrooted : isRooted written = true
    · exact ⟨written, hrooted, hforward, by simp [hdrive, hrooted], by simp [hrooted]⟩
    · rw [Bool.not_eq_true] at hrooted
      have hne : cwd ≠ [] := by
        rintro rfl
        exact absurd hcwd (by decide)
      have hfull := isRooted_fromDirectory hcwd written
      have hfullBack : '\\' ∉ fromDirectory cwd written := by
        unfold fromDirectory
        split
        · exact hforward
        · split <;> simp [hback, hforward]
      refine ⟨normalize (fromDirectory cwd written), isRooted_normalize hfull,
        not_mem_normalize hfull hfullBack, ?_, ?_⟩
      · have hdrive' := not_startsWithDrive (isRooted_normalize hfull)
        simp [hdrive, hrooted, forwardSlashes_of_not_mem (not_mem_normalize hfull hfullBack),
          rootDrive, hdrive']
      · rw [reduce_cut_normalize hfull hfullBack, reduce_cut_fromDirectory hne hrooted]
        simp [hdrive, hrooted]

/-- The segments of a canonical form are what reading the spelling leads to. -/
theorem segments_canonical {cwd : String} (hcwd : isRooted cwd.toList = true)
    (hback : '\\' ∉ cwd.toList) (path : String) :
    segments (canonical cwd path) = (writtenSegments cwd path).foldl follow [] := by
  obtain ⟨anchored, hrooted, hforward, htext, hleads⟩ :=
    canonicalChars_leads hcwd hback path.toList
  have hsegments : ∀ s ∈ (reduce true (cut '/' anchored)).map String.ofList, IsSegment s := by
    intro s hs
    obtain ⟨piece, hpiece, rfl⟩ := List.mem_map.mp hs
    exact isSegment_of_mem_reduce hforward hpiece
  rw [canonical, htext, dropWhile_normalize hrooted hforward, String.ofList_toList,
    segments_ofSegments hsegments, hleads, map_reduce]
  rfl

/-! ## The normal form -/

/-- The canonical form is a normal form, when relative paths continue an absolute directory without
backslashes. -/
theorem canonical_isNormalForm {cwd : String} (hcwd : isRooted cwd.toList = true)
    (hback : '\\' ∉ cwd.toList) :
    (∀ path, IsNormal (canonical cwd path)) ∧
      (∀ path, canonical cwd path = path ↔ IsNormal path) ∧
      (∀ path, canonical cwd (canonical cwd path) = canonical cwd path) ∧
      (∀ text, (∃ path, canonical cwd path = text) ↔ IsNormal text) ∧
      (∀ path, segments (canonical cwd path) = (writtenSegments cwd path).foldl follow []) ∧
      ∀ path, IsNormal path → path ≠ "/" →
        IsNormal (parent cwd path) ∧ IsSegment (base cwd path) ∧
          path = below (parent cwd path) (base cwd path) := by
  have hnormal : ∀ path, IsNormal (canonical cwd path) := fun path =>
    (isLocation_canonical hcwd path).isNormal
  have hfixed : ∀ path, canonical cwd path = path ↔ IsNormal path := fun path =>
    ⟨fun h => h ▸ hnormal path, fun h => canonical_of_isLocation h.isLocation cwd⟩
  refine ⟨hnormal, hfixed, fun path => (hfixed _).mpr (hnormal path), fun text => ?_,
    segments_canonical hcwd hback, ?_⟩
  · constructor
    · rintro ⟨path, rfl⟩
      exact hnormal path
    · exact fun h => ⟨text, (hfixed text).mpr h⟩
  · intro path h hroot
    rw [parent, base, (hfixed path).mpr h]
    obtain ⟨hdirectory, hlast, hbelow⟩ := eq_below_of_ne_root h.isLocation hroot
    exact ⟨hdirectory.isNormal, hlast, hbelow⟩

/-- A relative path with backslashes, dots and doubled slashes. -/
theorem canonical_isNormalForm_relative :
    let path := "..\\a//./b/../c"
    isRooted "/home/u".toList = true ∧ '\\' ∉ "/home/u".toList ∧
      IsNormal (canonical "/home/u" path) ∧
      segments (canonical "/home/u" path) = ["home", "a", "c"] ∧
      IsNormal "/home/a/c" ∧ "/home/a/c" ≠ "/" ∧ IsNormal "/home/a" ∧
      "/home/a/c" = below "/home/a" "c" := by
  intro path
  have hcwd : isRooted "/home/u".toList = true := by decide
  have hback : '\\' ∉ "/home/u".toList := by decide
  obtain ⟨hnormal, hfixed, -, -, hsegments, hjoin⟩ := canonical_isNormalForm hcwd hback
  have hpath : IsNormal "/home/a/c" := (hfixed _).mp (by decide)
  have hroot : "/home/a/c" ≠ "/" := by decide
  obtain ⟨hparent, -, hbelow⟩ := hjoin _ hpath hroot
  have hdirectory : parent "/home/u" "/home/a/c" = "/home/a" := by decide
  have hlast : base "/home/u" "/home/a/c" = "c" := by decide
  rw [hdirectory] at hparent hbelow
  rw [hlast] at hbelow
  exact ⟨hcwd, hback, hnormal path, (hsegments path).trans (by decide), hpath, hroot, hparent,
    hbelow⟩

end TestAtlas.Path
