import TestAtlas.Path

/-!
# Locations are lists of segments

A canonical location is determined by its segments, and every operation on locations acts on them:
going below a directory appends a segment, the directory part drops the last one, the ancestors are
the initial parts, and one location lies within another when the segments of the second start those
of the first.  The main statements are `isLocation_canonical` and `canonical_of_isLocation`: the
canonical form of any spelling is a location, and a location is its own canonical form.
-/

namespace TestAtlas.Path

open Text

/-- A name that can stand between the slashes of a location. -/
structure IsSegment (s : String) : Prop where
  ne_nil : s.toList ≠ []
  ne_dot : s.toList ≠ ['.']
  ne_dots : s.toList ≠ ['.', '.']
  no_slash : '/' ∉ s.toList
  no_backslash : '\\' ∉ s.toList

/-- A canonical absolute location. -/
def IsLocation (path : String) : Prop :=
  ∃ ss : List String, (∀ s ∈ ss, IsSegment s) ∧ path = ofSegments ss

theorem isLocation_ofSegments {ss : List String} (h : ∀ s ∈ ss, IsSegment s) :
    IsLocation (ofSegments ss) :=
  ⟨ss, h, rfl⟩

theorem IsLocation.ne_empty {path : String} (h : IsLocation path) : path ≠ "" := by
  obtain ⟨ss, -, rfl⟩ := h
  rintro hempty
  have hlist := congrArg String.toList hempty
  rw [ofSegments, String.toList_ofList] at hlist
  exact absurd hlist (by simp)

/-! ## Reading the segments back -/

theorem mem_join_of_mem {sep piece : List Char} {pieces : List (List Char)} {c : Char}
    (hp : piece ∈ pieces) (hc : c ∈ piece) : c ∈ join sep pieces := by
  induction pieces with
  | nil => simp at hp
  | cons p ps ih =>
      cases ps with
      | nil => simpa [join] using (List.mem_singleton.mp hp) ▸ hc
      | cons q qs =>
          simp only [join, List.mem_append]
          rcases List.mem_cons.mp hp with rfl | hp
          · exact Or.inl (Or.inl hc)
          · exact Or.inr (ih hp)

theorem of_mem_join {sep : List Char} {pieces : List (List Char)} {c : Char}
    (h : c ∈ join sep pieces) : c ∈ sep ∨ ∃ piece ∈ pieces, c ∈ piece := by
  induction pieces with
  | nil => simp [join] at h
  | cons p ps ih =>
      cases ps with
      | nil => exact Or.inr ⟨p, by simp, by simpa [join] using h⟩
      | cons q qs =>
          simp only [join, List.mem_append] at h
          rcases h with (h | h) | h
          · exact Or.inr ⟨p, by simp, h⟩
          · exact Or.inl h
          · rcases ih h with hsep | ⟨piece, hp, hc⟩
            · exact Or.inl hsep
            · exact Or.inr ⟨piece, by simp [hp], hc⟩

/-- Text made of segments starts with no slash. -/
theorem dropWhile_join {ss : List String} (h : ∀ s ∈ ss, IsSegment s) :
    (join ['/'] (ss.map String.toList)).dropWhile (· == '/') = join ['/'] (ss.map String.toList) := by
  cases ss with
  | nil => rfl
  | cons s rest =>
      have hs := h s (by simp)
      obtain ⟨c, cs, hc⟩ := List.exists_cons_of_ne_nil hs.ne_nil
      have hne : c ≠ '/' := by
        rintro rfl
        exact hs.no_slash (by simp [hc])
      cases rest with
      | nil => simp [join, hc, hne]
      | cons s' rest => simp [join, hc, hne]

theorem cut_join_segments {ss : List String} (hne : ss ≠ []) (h : ∀ s ∈ ss, IsSegment s) :
    cut '/' (join ['/'] (ss.map String.toList)) = ss.map String.toList := by
  apply cut_join
  · simpa using hne
  · intro piece hp
    obtain ⟨s, hs, rfl⟩ := List.mem_map.mp hp
    exact (h s hs).no_slash

/-- The pieces of a location are its segments, after the empty piece before the first slash. -/
theorem cut_ofSegments {ss : List String} (h : ∀ s ∈ ss, IsSegment s) :
    cut '/' (ofSegments ss).toList =
      [] :: (if ss = [] then [[]] else ss.map String.toList) := by
  rw [ofSegments, String.toList_ofList, cut_cons_self]
  split
  · rename_i hnil
    subst hnil
    rfl
  · rename_i hne
    rw [cut_join_segments hne h]

theorem segments_ofSegments {ss : List String} (h : ∀ s ∈ ss, IsSegment s) :
    segments (ofSegments ss) = ss := by
  have hmap : (ss.map String.toList).filter (· ≠ []) = ss.map String.toList := by
    rw [List.filter_eq_self]
    intro piece hp
    obtain ⟨s, hs, rfl⟩ := List.mem_map.mp hp
    simpa using (h s hs).ne_nil
  unfold segments
  rw [cut_ofSegments h]
  split
  · rename_i hnil
    subst hnil
    rfl
  · rw [List.filter_cons_of_neg (by simp), hmap, List.map_map]
    simp [Function.comp_def]

/-- Different lists of segments give different locations. -/
theorem ofSegments_inj {ss ts : List String} (hs : ∀ s ∈ ss, IsSegment s)
    (ht : ∀ t ∈ ts, IsSegment t) : ofSegments ss = ofSegments ts ↔ ss = ts := by
  constructor
  · intro h
    rw [← segments_ofSegments hs, h, segments_ofSegments ht]
  · rintro rfl
    rfl

/-! ## The canonical form -/

/-- The piece is one of those given, and it is a name rather than `.` or `..`. -/
structure IsNameIn (pieces : List (List Char)) (piece : List Char) : Prop where
  mem : piece ∈ pieces
  ne_nil : piece ≠ []
  ne_dot : piece ≠ ['.']
  ne_dots : piece ≠ ['.', '.']

/-- One step of the reduction of a rooted path leaves names only. -/
theorem isNameIn_of_mem_pushSegment {pieces read : List (List Char)}
    (hread : ∀ p ∈ read, IsNameIn pieces p) {segment : List Char} (hsegment : segment ∈ pieces)
    {piece : List Char} (h : piece ∈ pushSegment true read segment) : IsNameIn pieces piece := by
  simp only [pushSegment, if_true] at h
  split at h
  · exact hread piece h
  · rename_i hplain
    rw [not_or] at hplain
    split at h
    · -- what is taken back is a name, since no `..` was kept
      cases read with
      | nil => exact absurd h (by simp)
      | cons last before =>
          have hlast := (hread last (by simp)).ne_dots
          simp only [if_neg hlast] at h
          exact hread piece (by simp [h])
    · rename_i hdots
      rcases List.mem_cons.mp h with rfl | h
      · exact ⟨hsegment, hplain.1, hplain.2, hdots⟩
      · exact hread piece h

theorem isNameIn_of_mem_foldl {pieces rest read : List (List Char)}
    (hread : ∀ p ∈ read, IsNameIn pieces p) (hrest : ∀ p ∈ rest, p ∈ pieces)
    {piece : List Char} (h : piece ∈ rest.foldl (pushSegment true) read) :
    IsNameIn pieces piece := by
  induction rest generalizing read with
  | nil => exact hread piece h
  | cons segment rest ih =>
      have hsegment := hrest segment (by simp)
      have hstep : ∀ p ∈ pushSegment true read segment, IsNameIn pieces p :=
        fun p hp => isNameIn_of_mem_pushSegment hread hsegment hp
      exact ih hstep (fun p hp => hrest p (by simp [hp])) h

/-- A rooted path reduces to names. -/
theorem isNameIn_of_mem_reduce {pieces : List (List Char)} {piece : List Char}
    (h : piece ∈ reduce true pieces) : IsNameIn pieces piece := by
  rw [reduce, List.mem_reverse] at h
  exact isNameIn_of_mem_foldl (by simp) (fun p hp => hp) h

/-- The segments that a rooted text without backslashes reduces to. -/
theorem isSegment_of_mem_reduce {cs piece : List Char} (hcs : '\\' ∉ cs)
    (h : piece ∈ reduce true (cut '/' cs)) : IsSegment (String.ofList piece) := by
  obtain ⟨hmem, hne, hdot, hdots⟩ := isNameIn_of_mem_reduce h
  have hsub : ∀ c ∈ piece, c ∈ cs := by
    intro c hc
    rw [← join_cut '/' cs]
    exact mem_join_of_mem hmem hc
  refine ⟨by simpa using hne, by simpa using hdot, by simpa using hdots, ?_, ?_⟩
  · simpa using not_mem_of_mem_cut hmem
  · simpa using fun hb => hcs (hsub _ hb)

theorem rootSlashes_of_isRooted {cs : List Char} (h : isRooted cs = true) :
    rootSlashes cs = ['/'] ∨ rootSlashes cs = ['/', '/'] := by
  unfold rootSlashes
  split
  · exact Or.inl rfl
  · exact Or.inr rfl
  · exact Or.inl rfl
  · rename_i hno
    cases cs with
    | nil => simp [isRooted] at h
    | cons c rest =>
        unfold isRooted at h
        split at h
        · rename_i heq
          exact absurd heq (hno _)
        · exact absurd h (by simp)

theorem normalize_of_isRooted {cs : List Char} (h : isRooted cs = true) :
    normalize cs = rootSlashes cs ++ join ['/'] (reduce true (cut '/' cs)) := by
  rw [normalize, h]
  rcases rootSlashes_of_isRooted h with hr | hr <;> simp [hr]

theorem isRooted_normalize {cs : List Char} (h : isRooted cs = true) :
    isRooted (normalize cs) = true := by
  rw [normalize_of_isRooted h]
  rcases rootSlashes_of_isRooted h with hr | hr <;> simp [hr, isRooted]

theorem isRooted_forwardSlashes {cs : List Char} (h : isRooted cs = true) :
    isRooted (forwardSlashes cs) = true := by
  unfold isRooted at h
  split at h
  · simp [forwardSlashes, isRooted]
  · exact absurd h (by simp)

theorem not_startsWithDrive {cs : List Char} (h : isRooted cs = true) :
    startsWithDrive cs = false := by
  unfold isRooted at h
  split at h
  · rename_i rest
    cases rest with
    | nil => rfl
    | cons c rest =>
        unfold startsWithDrive
        split
        · rename_i heq
          obtain ⟨rfl, -⟩ := List.cons.inj heq
          decide
        · rfl
  · exact absurd h (by simp)

theorem isRooted_fromDirectory {directory : List Char} (h : isRooted directory = true)
    (cs : List Char) : isRooted (fromDirectory directory cs) = true := by
  unfold fromDirectory
  split
  · assumption
  · unfold isRooted at h
    split at h
    · split <;> simp [isRooted]
    · exact absurd h (by simp)

/-- The text whose canonical form is taken, once it is made absolute: it is rooted and has no
backslash. -/
private theorem canonicalChars_anchored {cwd : List Char} (hcwd : isRooted cwd = true)
    (cs : List Char) :
    ∃ path : List Char, isRooted path = true ∧ '\\' ∉ path ∧
      canonicalChars cwd cs = '/' :: (normalize path).dropWhile (· == '/') := by
  unfold canonicalChars
  simp only
  split
  · refine ⟨'/' :: forwardSlashes cs, rfl, ?_, rfl⟩
    simpa using not_mem_forwardSlashes cs
  · split
    · rename_i hrooted
      exact ⟨forwardSlashes cs, hrooted, not_mem_forwardSlashes cs, rfl⟩
    · have hrooted := isRooted_forwardSlashes
        (isRooted_normalize (isRooted_fromDirectory hcwd (forwardSlashes cs)))
      refine ⟨_, ?_, ?_, rfl⟩
      · rw [rootDrive, not_startsWithDrive hrooted]
        exact hrooted
      · rw [rootDrive, not_startsWithDrive hrooted]
        exact not_mem_forwardSlashes _

/-- The canonical form of a rooted text without backslashes, by its segments. -/
theorem dropWhile_normalize {path : List Char} (hrooted : isRooted path = true)
    (hback : '\\' ∉ path) :
    '/' :: (normalize path).dropWhile (· == '/') =
      (ofSegments ((reduce true (cut '/' path)).map String.ofList)).toList := by
  have hseg : ∀ s ∈ (reduce true (cut '/' path)).map String.ofList, IsSegment s := by
    intro s hs
    obtain ⟨piece, hp, rfl⟩ := List.mem_map.mp hs
    exact isSegment_of_mem_reduce hback hp
  have hpieces : ((reduce true (cut '/' path)).map String.ofList).map String.toList =
      reduce true (cut '/' path) := by
    simp [Function.comp_def]
  have hdrop := dropWhile_join hseg
  rw [hpieces] at hdrop
  rw [ofSegments, String.toList_ofList, hpieces, normalize_of_isRooted hrooted]
  rcases rootSlashes_of_isRooted hrooted with hr | hr <;> simp [hr, hdrop]

/-- The canonical form of any spelling is a location, when relative paths continue an absolute
directory. -/
theorem isLocation_canonical {cwd : String} (hcwd : isRooted cwd.toList = true) (path : String) :
    IsLocation (canonical cwd path) := by
  obtain ⟨anchored, hrooted, hback, heq⟩ := canonicalChars_anchored hcwd path.toList
  refine ⟨(reduce true (cut '/' anchored)).map String.ofList, ?_, ?_⟩
  · intro s hs
    obtain ⟨piece, hp, rfl⟩ := List.mem_map.mp hs
    exact isSegment_of_mem_reduce hback hp
  · rw [canonical, heq, dropWhile_normalize hrooted hback, String.ofList_toList]

/-- Segments are pushed as they are. -/
private theorem foldl_pushSegment_of_segments {ss : List String} (h : ∀ s ∈ ss, IsSegment s)
    (read : List (List Char)) :
    (ss.map String.toList).foldl (pushSegment true) read =
      (ss.map String.toList).reverse ++ read := by
  induction ss generalizing read with
  | nil => rfl
  | cons s ss ih =>
      have hs := h s (by simp)
      have hstep := pushSegment_of_ordinary true read hs.ne_nil hs.ne_dot hs.ne_dots
      rw [List.map_cons, List.foldl_cons, hstep, ih fun t ht => h t (by simp [ht])]
      simp

theorem reduce_of_segments {ss : List String} (h : ∀ s ∈ ss, IsSegment s) :
    reduce true ([] :: (if ss = [] then [[]] else ss.map String.toList)) =
      ss.map String.toList := by
  by_cases hss : ss = []
  · subst hss
    rfl
  · rw [if_neg hss, reduce, List.foldl_cons, pushSegment_of_empty, foldl_pushSegment_of_segments h]
    simp

/-- A text without backslashes keeps its slashes. -/
theorem forwardSlashes_of_not_mem {cs : List Char} (h : '\\' ∉ cs) : forwardSlashes cs = cs := by
  unfold forwardSlashes
  rw [List.map_congr_left (g := id) ?_, List.map_id]
  intro c hc
  have hne : c ≠ '\\' := by
    rintro rfl
    exact h hc
  rw [if_neg hne]
  rfl

theorem not_mem_toList_ofSegments {ss : List String} (h : ∀ s ∈ ss, IsSegment s) :
    '\\' ∉ (ofSegments ss).toList := by
  rw [ofSegments, String.toList_ofList, List.mem_cons, not_or]
  refine ⟨by decide, fun hmem => ?_⟩
  rcases of_mem_join hmem with hsep | ⟨piece, hp, hc⟩
  · exact absurd hsep (by decide)
  · obtain ⟨s, hs, rfl⟩ := List.mem_map.mp hp
    exact (h s hs).no_backslash hc

/-- A location is its own canonical form. -/
theorem canonical_of_isLocation {path : String} (h : IsLocation path) (cwd : String) :
    canonical cwd path = path := by
  obtain ⟨ss, hss, rfl⟩ := h
  have hrooted : isRooted (ofSegments ss).toList = true := by
    rw [ofSegments, String.toList_ofList]
    rfl
  have hback := not_mem_toList_ofSegments hss
  have hforward := forwardSlashes_of_not_mem hback
  -- a location is rooted and has no backslash, so only the reduction is left to look at
  rw [canonical, canonicalChars]
  simp only [hforward, not_startsWithDrive hrooted, hrooted, if_true, Bool.false_eq_true, if_false]
  rw [dropWhile_normalize hrooted hback, String.ofList_toList, cut_ofSegments hss,
    reduce_of_segments hss, List.map_map]
  simp [Function.comp_def]

theorem canonical_canonical {cwd : String} (hcwd : isRooted cwd.toList = true)
    (cwd' path : String) : canonical cwd' (canonical cwd path) = canonical cwd path :=
  canonical_of_isLocation (isLocation_canonical hcwd path) cwd'

end TestAtlas.Path
