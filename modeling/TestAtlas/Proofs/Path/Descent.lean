import TestAtlas.Proofs.Path.Location
import Mathlib.Data.List.Infix

/-!
# Going up and down between locations

What `below`, `directoryPart`, `lastPart`, `ancestors`, `isAtOrBelow` and `relative` do to the
segments of a location.  After this file locations are handled through these statements and through
`IsLocation.below_induction`: a location is the root, or a segment below another location.
-/

namespace TestAtlas.Path

open Text

/-! ## Joining and cutting at a slash -/

theorem join_concat {sep : List Char} {pieces : List (List Char)} (h : pieces ≠ [])
    (piece : List Char) : join sep (pieces ++ [piece]) = join sep pieces ++ sep ++ piece := by
  induction pieces with
  | nil => exact absurd rfl h
  | cons p ps ih =>
      cases ps with
      | nil => simp [join]
      | cons q qs =>
          have hq := ih (by simp)
          simp only [List.cons_append] at hq ⊢
          simp only [join, hq, List.append_assoc]

theorem cut_append_sep (sep : Char) (xs ys : List Char) :
    cut sep (xs ++ sep :: ys) = cut sep xs ++ cut sep ys := by
  induction xs with
  | nil => simp
  | cons c xs ih =>
      simp only [List.cons_append, cut, ih]
      split
      · simp
      · cases hcut : cut sep xs with
        | nil => exact absurd hcut (cut_ne_nil sep xs)
        | cons piece pieces => simp

/-- The characters of a location, without the only slash of the root. -/
def stem (ss : List String) : List Char := if ss = [] then [] else (ofSegments ss).toList

theorem toList_ofSegments_concat (ss : List String) (s : String) :
    (ofSegments (ss ++ [s])).toList = stem ss ++ '/' :: s.toList := by
  unfold stem
  split
  · rename_i hnil
    subst hnil
    simp [ofSegments, join]
  · rename_i hne
    simp only [ofSegments, String.toList_ofList, List.map_append, List.map_cons, List.map_nil]
    rw [join_concat (by simpa using hne)]
    simp

theorem ofSegments_nil : ofSegments [] = "/" := by decide

/-- The characters of a location other than the root end in no slash. -/
theorem getLast?_stem {ss : List String} (h : ∀ s ∈ ss, IsSegment s) :
    (stem ss).getLast? ≠ some '/' := by
  rcases List.eq_nil_or_concat' ss with rfl | ⟨ts, t, rfl⟩
  · simp [stem]
  · have ht : IsSegment t := h t (by simp)
    have hstem : stem (ts ++ [t]) = stem ts ++ '/' :: t.toList := by
      rw [← toList_ofSegments_concat, stem, if_neg (by simp)]
    rw [hstem, List.getLast?_append_of_ne_nil _ (by simp),
      List.getLast?_cons_of_ne_nil ht.ne_nil]
    intro hlast
    exact ht.no_slash (List.mem_of_getLast? hlast)

/-- The characters of a location without its trailing slash. -/
theorem dropWhile_reverse_ofSegments {ss : List String} (h : ∀ s ∈ ss, IsSegment s) :
    ((ofSegments ss).toList.reverse.dropWhile (· == '/')).reverse = stem ss := by
  by_cases hss : ss = []
  · subst hss
    decide
  · have hstem : stem ss = (ofSegments ss).toList := by rw [stem, if_neg hss]
    have hlast := getLast?_stem h
    rw [hstem] at hlast ⊢
    rw [← List.head?_reverse] at hlast
    cases hrev : (ofSegments ss).toList.reverse with
    | nil => simpa using hrev
    | cons c cs =>
        have hc : c ≠ '/' := by
          rintro rfl
          simp [hrev] at hlast
        rw [List.dropWhile_cons_of_neg (by simpa using hc), ← hrev, List.reverse_reverse]

/-! ## One step down and one step up -/

theorem below_ofSegments {ss : List String} (hss : ∀ s ∈ ss, IsSegment s) {s : String}
    (hs : '/' ∉ s.toList) : below (ofSegments ss) s = ofSegments (ss ++ [s]) := by
  have hrooted : isRooted s.toList = false := by
    unfold isRooted
    split
    · rename_i heq
      exact absurd (by simp [heq]) hs
    · rfl
  rw [← String.toList_inj, toList_ofSegments_concat, below, String.toList_ofList, fromDirectory,
    hrooted, if_neg Bool.false_ne_true]
  by_cases hnil : ss = []
  · subst hnil
    rw [if_pos (Or.inr (by decide))]
    simp [stem, ofSegments_nil]
  · have hstem : stem ss = (ofSegments ss).toList := by rw [stem, if_neg hnil]
    have hlast := getLast?_stem hss
    rw [hstem] at hlast
    rw [if_neg (by
      rw [not_or]
      exact ⟨by simp [ofSegments], hlast⟩), hstem]

theorem splitLast_ofSegments_concat (ss : List String) {s : String} (hs : '/' ∉ s.toList) :
    splitLast (ofSegments (ss ++ [s])).toList = (stem ss ++ ['/'], s.toList) := by
  rw [toList_ofSegments_concat, splitLast, cutLast_append hs]

theorem lastPart_ofSegments_concat (ss : List String) {s : String} (hs : '/' ∉ s.toList) :
    lastPart (ofSegments (ss ++ [s])) = s := by
  rw [lastPart, splitLast_ofSegments_concat ss hs, String.ofList_toList]

theorem directoryPart_ofSegments_concat {ss : List String} (hss : ∀ s ∈ ss, IsSegment s)
    {s : String} (hs : IsSegment s) : directoryPart (ofSegments (ss ++ [s])) = ofSegments ss := by
  rw [directoryPart, splitLast_ofSegments_concat ss hs.no_slash]
  by_cases hnil : ss = []
  · subst hnil
    rfl
  · have hstem : stem ss = (ofSegments ss).toList := by rw [stem, if_neg hnil]
    -- the part before the last slash is stripped of its own trailing slashes unless it is nothing
    -- but slashes, and a segment is something else
    have hall : ((stem ss ++ ['/']).all (· == '/')) = false := by
      rcases List.eq_nil_or_concat' ss with rfl | ⟨ts, t, rfl⟩
      · exact absurd rfl hnil
      · have ht : IsSegment t := hss t (by simp)
        obtain ⟨c, cs, hc⟩ := List.exists_cons_of_ne_nil ht.ne_nil
        have hne : c ≠ '/' := by
          rintro rfl
          exact ht.no_slash (by simp [hc])
        rw [hstem, toList_ofSegments_concat, hc]
        simp [hne]
    simp only [hall]
    rw [← String.toList_inj]
    simp only [Bool.false_eq_true, if_false, String.toList_ofList, List.reverse_append,
      List.reverse_cons, List.reverse_nil, List.nil_append, List.cons_append]
    rw [List.dropWhile_cons_of_pos (by simp), hstem, dropWhile_reverse_ofSegments hss, hstem]

theorem isSegment_of_mem_concat {ss : List String} (hss : ∀ s ∈ ss, IsSegment s) {s : String}
    (hs : IsSegment s) : ∀ t ∈ ss ++ [s], IsSegment t := by
  intro t ht
  rcases List.mem_append.mp ht with ht | ht
  · exact hss t ht
  · exact (List.mem_singleton.mp ht) ▸ hs

theorem isLocation_root : IsLocation "/" :=
  ⟨[], by simp, ofSegments_nil.symm⟩

theorem IsLocation.below {d s : String} (hd : IsLocation d) (hs : IsSegment s) :
    IsLocation (below d s) := by
  obtain ⟨ss, hss, rfl⟩ := hd
  rw [below_ofSegments hss hs.no_slash]
  exact isLocation_ofSegments (isSegment_of_mem_concat hss hs)

/-- A location is the root, or a segment below another location. -/
@[elab_as_elim]
theorem IsLocation.below_induction {motive : (path : String) → IsLocation path → Prop}
    (root : motive "/" isLocation_root)
    (step : ∀ d s (hd : IsLocation d) (hs : IsSegment s), motive d hd →
      motive (Path.below d s) (hd.below hs))
    {path : String} (h : IsLocation path) : motive path h := by
  obtain ⟨ss, hss, rfl⟩ := h
  induction ss using List.reverseRecOn with
  | nil =>
      have heq : ofSegments [] = "/" := ofSegments_nil
      simp only [heq]
      exact root
  | append_singleton ss s ih =>
      have hs : IsSegment s := hss s (by simp)
      have hss' : ∀ t ∈ ss, IsSegment t := fun t ht => hss t (by simp [ht])
      have heq := below_ofSegments hss' hs.no_slash
      simp only [← heq]
      exact step _ _ (isLocation_ofSegments hss') hs (ih hss')

/-- Any text without a slash can be read back from below a location. -/
theorem lastPart_below_of_no_slash {d s : String} (hd : IsLocation d) (hs : '/' ∉ s.toList) :
    lastPart (below d s) = s := by
  obtain ⟨ss, hss, rfl⟩ := hd
  rw [below_ofSegments hss hs, lastPart_ofSegments_concat ss hs]

@[simp]
theorem lastPart_below {d s : String} (hd : IsLocation d) (hs : IsSegment s) :
    lastPart (below d s) = s :=
  lastPart_below_of_no_slash hd hs.no_slash

@[simp]
theorem directoryPart_below {d s : String} (hd : IsLocation d) (hs : IsSegment s) :
    directoryPart (below d s) = d := by
  obtain ⟨ss, hss, rfl⟩ := hd
  rw [below_ofSegments hss hs.no_slash, directoryPart_ofSegments_concat hss hs]

theorem directoryPart_root : directoryPart "/" = "/" := by decide

theorem lastPart_root : lastPart "/" = "" := by decide

/-- Every location but the root is its last part below its directory part. -/
theorem eq_below_of_ne_root {path : String} (h : IsLocation path) (hne : path ≠ "/") :
    IsLocation (directoryPart path) ∧ IsSegment (lastPart path) ∧
      path = below (directoryPart path) (lastPart path) := by
  induction h using IsLocation.below_induction with
  | root => exact absurd rfl hne
  | step d s hd hs _ =>
      rw [directoryPart_below hd hs, lastPart_below hd hs]
      exact ⟨hd, hs, rfl⟩

theorem isLocation_directoryPart {path : String} (h : IsLocation path) :
    IsLocation (directoryPart path) := by
  by_cases hroot : path = "/"
  · rw [hroot, directoryPart_root]
    exact isLocation_root
  · exact (eq_below_of_ne_root h hroot).1

/-! ## Ancestors -/

theorem climb_reverse_concat (ss : List String) (s : String) :
    climb (ss ++ [s]).reverse = ofSegments (ss ++ [s]) :: climb ss.reverse := by
  simp [climb]

theorem ancestors_root : ancestors "/" = ["/"] := by
  rw [← ofSegments_nil, ancestors, segments_ofSegments (by simp)]
  rfl

theorem ancestors_below {d s : String} (hd : IsLocation d) (hs : IsSegment s) :
    ancestors (below d s) = below d s :: ancestors d := by
  obtain ⟨ss, hss, rfl⟩ := hd
  rw [below_ofSegments hss hs.no_slash, ancestors, segments_ofSegments (isSegment_of_mem_concat hss hs),
    climb_reverse_concat, ancestors, segments_ofSegments hss]

/-- A location comes first among its ancestors. -/
theorem ancestors_eq_cons {path : String} (h : IsLocation path) :
    ∃ above, ancestors path = path :: above := by
  induction h using IsLocation.below_induction with
  | root => exact ⟨[], ancestors_root⟩
  | step d s hd hs _ => exact ⟨_, ancestors_below hd hs⟩

/-! ## At or below -/

theorem beneath_ofSegments {ss : List String} (h : ∀ s ∈ ss, IsSegment s) :
    beneath (ofSegments ss) = stem ss ++ ['/'] := by
  rw [beneath, dropWhile_reverse_ofSegments h]

/-- One location lies at or below another exactly when its segments start with those of the
other. -/
theorem isAtOrBelow_ofSegments {ss ts : List String} (hs : ∀ s ∈ ss, IsSegment s)
    (ht : ∀ t ∈ ts, IsSegment t) :
    isAtOrBelow (ofSegments ss) (ofSegments ts) = true ↔ ts <+: ss := by
  rw [isAtOrBelow, Bool.or_eq_true, decide_eq_true_eq, ofSegments_inj hs ht,
    List.isPrefixOf_iff_prefix, beneath_ofSegments ht]
  constructor
  · rintro (rfl | ⟨rest, hrest⟩)
    · exact List.prefix_refl _
    · by_cases hts : ts = []
      · rw [hts]
        exact List.nil_prefix
      · -- cutting both texts at the slashes turns the prefix of characters into one of segments
        have hcut := congrArg (cut '/') hrest
        rw [List.append_assoc, List.singleton_append, cut_append_sep, stem, if_neg hts,
          cut_ofSegments ht, cut_ofSegments hs, if_neg hts, List.cons_append,
          List.cons.injEq] at hcut
        have hlists := hcut.2
        by_cases hss : ss = []
        · rw [if_pos hss] at hlists
          cases ts with
          | nil => exact absurd rfl hts
          | cons t ts =>
              have := (List.cons.inj hlists).1
              exact absurd this (ht t (by simp)).ne_nil
        · rw [if_neg hss] at hlists
          have hprefix : ts.map String.toList <+: ss.map String.toList := ⟨_, hlists⟩
          have := hprefix.map String.ofList
          simpa [Function.comp_def] using this
  · rintro ⟨us, rfl⟩
    -- from the back, since one more segment only adds characters at the end
    induction us using List.reverseRecOn with
    | nil => simp
    | append_singleton us u ih =>
        right
        rw [← List.append_assoc, toList_ofSegments_concat]
        have hs' : ∀ s ∈ ts ++ us, IsSegment s := by
          intro s hmem
          apply hs
          simp only [List.mem_append] at hmem ⊢
          tauto
        rcases ih hs' with heq | hprefix
        · have hnil : us = [] := by simpa using heq
          subst hnil
          rw [List.append_nil]
          exact ⟨u.toList, by simp⟩
        · by_cases hnil : ts ++ us = []
          · obtain ⟨rfl, rfl⟩ := List.append_eq_nil_iff.mp hnil
            exact ⟨u.toList, by simp [stem]⟩
          · rw [stem, stem, if_neg hnil] at *
            exact hprefix.trans (List.prefix_append _ _)

theorem isAtOrBelow_trans {a b c : String} (ha : IsLocation a) (hb : IsLocation b)
    (hc : IsLocation c) (hab : isAtOrBelow a b = true) (hbc : isAtOrBelow b c = true) :
    isAtOrBelow a c = true := by
  obtain ⟨as, has, rfl⟩ := ha
  obtain ⟨bs, hbs, rfl⟩ := hb
  obtain ⟨cs, hcs, rfl⟩ := hc
  rw [isAtOrBelow_ofSegments has hbs] at hab
  rw [isAtOrBelow_ofSegments hbs hcs] at hbc
  rw [isAtOrBelow_ofSegments has hcs]
  exact hbc.trans hab

theorem isAtOrBelow_antisymm {a b : String} (ha : IsLocation a) (hb : IsLocation b)
    (hab : isAtOrBelow a b = true) (hba : isAtOrBelow b a = true) : a = b := by
  obtain ⟨as, has, rfl⟩ := ha
  obtain ⟨bs, hbs, rfl⟩ := hb
  rw [isAtOrBelow_ofSegments has hbs] at hab
  rw [isAtOrBelow_ofSegments hbs has] at hba
  rw [hab.eq_of_length_le hba.length_le]

/-- Of two locations above a third one, one lies above the other. -/
theorem isAtOrBelow_total {a b d : String} (ha : IsLocation a) (hb : IsLocation b)
    (hd : IsLocation d) (hda : isAtOrBelow d a = true) (hdb : isAtOrBelow d b = true) :
    isAtOrBelow a b = true ∨ isAtOrBelow b a = true := by
  obtain ⟨as, has, rfl⟩ := ha
  obtain ⟨bs, hbs, rfl⟩ := hb
  obtain ⟨ds, hds, rfl⟩ := hd
  rw [isAtOrBelow_ofSegments hds has] at hda
  rw [isAtOrBelow_ofSegments hds hbs] at hdb
  rw [isAtOrBelow_ofSegments has hbs, isAtOrBelow_ofSegments hbs has]
  exact (List.prefix_or_prefix_of_prefix hda hdb).symm

theorem isAtOrBelow_below_self {d s : String} (hd : IsLocation d) (hs : IsSegment s) :
    isAtOrBelow (below d s) d = true := by
  obtain ⟨ss, hss, rfl⟩ := hd
  rw [below_ofSegments hss hs.no_slash, isAtOrBelow_ofSegments (isSegment_of_mem_concat hss hs) hss]
  exact List.prefix_append _ _

theorem below_ne_self {d s : String} (hd : IsLocation d) (hs : IsSegment s) : below d s ≠ d := by
  obtain ⟨ss, hss, rfl⟩ := hd
  rw [below_ofSegments hss hs.no_slash]
  intro heq
  have := (ofSegments_inj (isSegment_of_mem_concat hss hs) hss).mp heq
  simp at this

theorem isAtOrBelow_directoryPart_self {p : String} (hp : IsLocation p) :
    isAtOrBelow p (directoryPart p) = true := by
  by_cases hroot : p = "/"
  · rw [hroot, directoryPart_root]
    exact isAtOrBelow_refl "/"
  · obtain ⟨hdir, hlast, hbelow⟩ := eq_below_of_ne_root hp hroot
    have hself := isAtOrBelow_below_self hdir hlast
    rwa [← hbelow] at hself

theorem isAtOrBelow_directoryPart_eq_false {p : String} (hp : IsLocation p) (hroot : p ≠ "/") :
    isAtOrBelow (directoryPart p) p = false := by
  obtain ⟨hdir, hlast, hbelow⟩ := eq_below_of_ne_root hp hroot
  rw [Bool.eq_false_iff]
  intro hin
  have hsame := isAtOrBelow_antisymm hdir hp hin (isAtOrBelow_directoryPart_self hp)
  exact below_ne_self hdir hlast (hbelow.symm.trans hsame.symm)

/-- What a location one step down lies at or below: itself, or what the directory lies at or
below. -/
theorem isAtOrBelow_below_iff {d s a : String} (hd : IsLocation d) (hs : IsSegment s)
    (ha : IsLocation a) :
    isAtOrBelow (below d s) a = true ↔ a = below d s ∨ isAtOrBelow d a = true := by
  constructor
  · intro h
    obtain ⟨ss, hss, rfl⟩ := hd
    obtain ⟨as, has, rfl⟩ := ha
    rw [below_ofSegments hss hs.no_slash, isAtOrBelow_ofSegments (isSegment_of_mem_concat hss hs) has,
      List.prefix_concat_iff] at h
    rw [below_ofSegments hss hs.no_slash, isAtOrBelow_ofSegments hss has]
    rcases h with rfl | h
    · exact Or.inl rfl
    · exact Or.inr h
  · rintro (rfl | h)
    · exact isAtOrBelow_refl _
    · exact isAtOrBelow_trans (hd.below hs) hd ha (isAtOrBelow_below_self hd hs) h

/-- The ancestors of a location are the locations that it lies at or below. -/
theorem mem_ancestors_iff {path a : String} (h : IsLocation path) :
    a ∈ ancestors path ↔ IsLocation a ∧ isAtOrBelow path a = true := by
  induction h using IsLocation.below_induction with
  | root =>
      rw [ancestors_root, List.mem_singleton]
      constructor
      · rintro rfl
        exact ⟨isLocation_root, isAtOrBelow_refl _⟩
      · rintro ⟨⟨as, has, rfl⟩, hab⟩
        rw [← ofSegments_nil, isAtOrBelow_ofSegments (by simp) has, List.prefix_nil] at hab
        rw [hab, ofSegments_nil]
  | step d s hd hs ih =>
      rw [ancestors_below hd hs, List.mem_cons, ih]
      constructor
      · rintro (rfl | ⟨ha, hab⟩)
        · exact ⟨hd.below hs, isAtOrBelow_refl _⟩
        · exact ⟨ha, (isAtOrBelow_below_iff hd hs ha).mpr (Or.inr hab)⟩
      · rintro ⟨ha, hab⟩
        rcases (isAtOrBelow_below_iff hd hs ha).mp hab with rfl | hab
        · exact Or.inl rfl
        · exact Or.inr ⟨ha, hab⟩

/-- Directory and name tell locations apart. -/
theorem eq_of_parts_eq {p q : String} (hp : IsLocation p) (hq : IsLocation q)
    (hdirectory : directoryPart p = directoryPart q) (hlast : lastPart p = lastPart q) : p = q := by
  by_cases hproot : p = "/" <;> by_cases hqroot : q = "/"
  · rw [hproot, hqroot]
  · have hseg := (eq_below_of_ne_root hq hqroot).2.1
    rw [← hlast, hproot, lastPart_root] at hseg
    exact absurd rfl hseg.ne_nil
  · have hseg := (eq_below_of_ne_root hp hproot).2.1
    rw [hlast, hqroot, lastPart_root] at hseg
    exact absurd rfl hseg.ne_nil
  · rw [(eq_below_of_ne_root hp hproot).2.2, (eq_below_of_ne_root hq hqroot).2.2, hdirectory, hlast]

theorem nodup_ancestors {p : String} (hp : IsLocation p) : (ancestors p).Nodup := by
  induction hp using IsLocation.below_induction with
  | root => simp [ancestors_root]
  | step d s hd hs ih =>
      rw [ancestors_below hd hs, List.nodup_cons]
      refine ⟨fun hmem => ?_, ih⟩
      have hback := ((mem_ancestors_iff hd).mp hmem).2
      exact below_ne_self hd hs
        (isAtOrBelow_antisymm (hd.below hs) hd (isAtOrBelow_below_self hd hs) hback)

/-- What lies strictly inside a directory has its own directory there. -/
theorem isAtOrBelow_directoryPart {p d : String} (hp : IsLocation p) (hd : IsLocation d)
    (h : isAtOrBelow p d = true) (hne : p ≠ d) : isAtOrBelow (directoryPart p) d = true := by
  have hroot : p ≠ "/" := by
    rintro rfl
    have hmem := (mem_ancestors_iff hp).mpr ⟨hd, h⟩
    rw [ancestors_root, List.mem_singleton] at hmem
    exact hne hmem.symm
  obtain ⟨hdirectory, hlast, heq⟩ := eq_below_of_ne_root hp hroot
  rw [heq, isAtOrBelow_below_iff hdirectory hlast hd] at h
  exact h.resolve_left fun hd => hne (heq.trans hd.symm)

theorem isWithin_of_isLocation {path root : String} (hp : IsLocation path) (hr : IsLocation root)
    (cwd : String) : isWithin cwd path root = isAtOrBelow path root := by
  rw [isWithin, canonical_of_isLocation hp, canonical_of_isLocation hr]

/-- A location strictly inside another is written with more characters. -/
theorem length_lt_of_isAtOrBelow {path root : String} (hp : IsLocation path)
    (hr : IsLocation root) (h : isAtOrBelow path root = true) (hne : path ≠ root) :
    root.length < path.length := by
  obtain ⟨ss, hss, rfl⟩ := hp
  obtain ⟨ts, hts, rfl⟩ := hr
  rw [isAtOrBelow_ofSegments hss hts] at h
  obtain ⟨us, rfl⟩ := h
  rw [← String.length_toList, ← String.length_toList]
  -- each segment further down adds its slash and at least one character
  induction us using List.reverseRecOn with
  | nil => simp at hne
  | append_singleton us u ih =>
      have hu : u.toList ≠ [] := (hss u (by simp)).ne_nil
      have hpos : 0 < u.toList.length := List.length_pos_iff.mpr hu
      rw [← List.append_assoc, toList_ofSegments_concat, List.length_append, List.length_cons]
      by_cases hus : us = []
      · subst hus
        rw [List.append_nil, stem]
        split
        · rename_i hts
          subst hts
          simp [ofSegments_nil]
          omega
        · omega
      · have hne' : ofSegments (ts ++ us) ≠ ofSegments ts := by
          rw [ne_eq, ofSegments_inj (fun s hs => hss s (by simp at hs ⊢; tauto)) hts]
          simpa using hus
        have hlt := ih (fun s hs => hss s (by simp at hs ⊢; tauto)) hne'
        rw [stem, if_neg (by simp [hus])]
        omega

/-! ## Names on the way down -/

/-- The location that the given names lead to, one below the other. -/
def descend (directory : String) (names : List String) : String := names.foldl below directory

theorem descend_ofSegments {ss : List String} (hss : ∀ s ∈ ss, IsSegment s) {ts : List String}
    (hts : ∀ t ∈ ts, IsSegment t) : descend (ofSegments ss) ts = ofSegments (ss ++ ts) := by
  induction ts generalizing ss with
  | nil => simp [descend]
  | cons t ts ih =>
      have ht : IsSegment t := hts t (by simp)
      have hstep := ih (isSegment_of_mem_concat hss ht) (fun u hu => hts u (by simp [hu]))
      rw [descend, List.foldl_cons, below_ofSegments hss ht.no_slash]
      simpa [descend] using hstep

theorem isLocation_descend {d : String} (hd : IsLocation d) {names : List String}
    (h : ∀ n ∈ names, IsSegment n) : IsLocation (descend d names) := by
  induction names generalizing d with
  | nil => exact hd
  | cons n names ih => exact ih (hd.below (h n (by simp))) (fun m hm => h m (by simp [hm]))

theorem isAtOrBelow_descend {d : String} (hd : IsLocation d) {names : List String}
    (h : ∀ n ∈ names, IsSegment n) : isAtOrBelow (descend d names) d = true := by
  obtain ⟨ss, hss, rfl⟩ := hd
  have hall : ∀ s ∈ ss ++ names, IsSegment s := by
    intro s hs
    rcases List.mem_append.mp hs with hs | hs
    · exact hss s hs
    · exact h s hs
  rw [descend_ofSegments hss h, isAtOrBelow_ofSegments hall hss]
  exact List.prefix_append _ _

/-- Some names lead down to every location inside a directory. -/
theorem exists_descend {d path : String} (hd : IsLocation d) (hp : IsLocation path)
    (h : isAtOrBelow path d = true) :
    ∃ names, (∀ n ∈ names, IsSegment n) ∧ path = descend d names := by
  obtain ⟨ss, hss, rfl⟩ := hd
  obtain ⟨ps, hps, rfl⟩ := hp
  rw [isAtOrBelow_ofSegments hps hss] at h
  obtain ⟨ts, rfl⟩ := h
  have hts : ∀ t ∈ ts, IsSegment t := fun t ht => hps t (by simp [ht])
  exact ⟨ts, hts, (descend_ofSegments hss hts).symm⟩

/-- The names that lead down are the relative path. -/
theorem relative_descend {d : String} (hd : IsLocation d) {names : List String}
    (h : ∀ n ∈ names, IsSegment n) : relative (descend d names) d = names := by
  obtain ⟨ss, hss, rfl⟩ := hd
  have hall : ∀ s ∈ ss ++ names, IsSegment s := by
    intro s hs
    rcases List.mem_append.mp hs with hs | hs
    · exact hss s hs
    · exact h s hs
  -- nothing is left of the directory once the common segments are dropped
  have hdrop : ∀ as : List String, dropCommon (as ++ names) as = (names, []) := by
    intro as
    induction as with
    | nil => cases names <;> rfl
    | cons a as ih => simp [dropCommon, ih]
  rw [descend_ofSegments hss h, relative, segments_ofSegments hall, segments_ofSegments hss,
    hdrop]
  simp

end TestAtlas.Path
