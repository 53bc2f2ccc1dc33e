import TestAtlas.Proofs.Explorer.Opening
import TestAtlas.Proofs.Workspace.Coverage

/-!
# Which test files the full tree holds

Filling in an item puts all in that discovery finds below it, and nothing but that.  So the full
tree of an explorer holds a test file in a directory to which a walk from a folder comes just when
the directory has no owner, or a walk from its owner comes to it as well.  The main statement is
`holdsFile_expandFully_iff`.  A folder below a directory that is left out of its own module is the
case in which files are missing: `not_holdsFile_expandFully`.
-/

namespace TestAtlas

open TestAtlas.Path

namespace Forest

/-- An item of the kind at the location stands at the place. -/
def HasAt (f : Forest) (place : Place) (kind : Kind) (location : String) : Prop :=
  ∃ n ∈ f.members place, ∃ i, f.item? n = some i ∧ i.kind = kind ∧ i.location = location

/-- Some file item of the tree has the location. -/
def HoldsFile (f : Forest) (location : String) : Prop :=
  ∃ n i, f.InTree n ∧ f.item? n = some i ∧ i.kind = .file ∧ i.location = location

theorem HasAt.grows {f g : Forest} (hfg : f.Grows g) {place : Place} {kind : Kind}
    {location : String} (h : f.HasAt place kind location) : g.HasAt place kind location := by
  obtain ⟨n, hn, i, hi, hrest⟩ := h
  exact ⟨n, (hfg.members place).subset hn, i, hfg.keeps n i hi, hrest⟩

/-- Some file item at or below the item has the location. -/
def HoldsFileBelow (f : Forest) (r : ItemNo) (location : String) : Prop :=
  ∃ n i, f.IsBelow r n ∧ f.item? n = some i ∧ i.kind = .file ∧ i.location = location

theorem HoldsFileBelow.holdsFile {f : Forest} {r : ItemNo} {location : String}
    (h : f.HoldsFileBelow r location) : f.HoldsFile location := by
  obtain ⟨n, i, hn, hrest⟩ := h
  exact ⟨n, i, hn.inTree, hrest⟩

theorem HasAt.holdsFileBelow {f : Forest} {r n : ItemNo} (hn : f.IsBelow r n) {location : String}
    (h : f.HasAt (.under n) .file location) : f.HoldsFileBelow r location := by
  obtain ⟨m, hm, i, hi, hrest⟩ := h
  exact ⟨m, i, .child hn hm, hi, hrest⟩

end Forest

namespace Explorer

variable {w : Workspace} {c : Conventions} {e : Explorer}

/-! ## What is put in is there -/

section Ensure

variable {fits : Option Item → Item → Prop} {owner : Option Item}

theorem ensure_hasAt (h : e.forest.IsOrderly w.cwd fits) (place : Place)
    (howner : e.forest.ownerAt place = some owner) {k : Container} (hk : k.kind.isLeaf = false)
    (hl : IsLocation k.location) (hfits : fits owner (k.item w.cwd)) :
    ∃ n e', e.ensure w place k = .ok (n, e') ∧ e'.forest.IsOrderly w.cwd fits ∧
      e.forest.Grows e'.forest ∧ e'.forest.HasAt place k.kind k.location := by
  have hplace := Forest.hasPlace_of_ownerAt howner
  rcases ensure_cases h.consistent hplace hk with
    ⟨n, i, hensure, hn, hi, hid⟩ | ⟨hfind, hensure, hn, hi⟩
  · have hsame := (h.genuine n i hi).eq_of_id_container hk hl hid
    exact ⟨n, e, hensure, h, Forest.Grows.refl _, n, hn, i, hi, hsame⟩
  · have hgenuine := Container.isGenuine_item hk hl w.cwd
    exact ⟨_, _, hensure, h.put howner hgenuine hfits hfind, Forest.grows_put hplace _, _, hn, _, hi,
      rfl, rfl⟩

/-- All containers that fit at a place are put there. -/
theorem ensureAll_hasAt (h : e.forest.IsOrderly w.cwd fits) (place : Place)
    (howner : e.forest.ownerAt place = some owner) (ks : List Container)
    (hks : ∀ k ∈ ks, k.kind.isLeaf = false ∧ IsLocation k.location ∧ fits owner (k.item w.cwd)) :
    ∃ e', e.ensureAll w place ks = .ok e' ∧ e'.forest.IsOrderly w.cwd fits ∧
      e.forest.Grows e'.forest ∧ ∀ k ∈ ks, e'.forest.HasAt place k.kind k.location := by
  induction ks generalizing e with
  | nil => exact ⟨e, rfl, h, Forest.Grows.refl _, by simp⟩
  | cons k ks ih =>
      obtain ⟨hk, hl, hfits⟩ := hks k (by simp)
      obtain ⟨n, s, hensure, hs, hgrows, hhas⟩ := ensure_hasAt h place howner hk hl hfits
      obtain ⟨e', hall, he', hgrows', hhas'⟩ :=
        ih hs (hgrows.keeps.ownerAt howner) fun k' hk' => hks k' (by simp [hk'])
      refine ⟨e', ?_, he', hgrows.trans hgrows', ?_⟩
      · rw [ensureAll, hensure]
        exact hall
      · intro k' hk'
        rcases List.mem_cons.mp hk' with rfl | hk'
        · exact hhas.grows hgrows'
        · exact hhas' k' hk'

end Ensure

/-! ## What is found is put in -/

/-- What stands below another item was come to from there: a package by a walk, a file by the
listing. -/
def IsShown (w : Workspace) (c : Conventions) : Option Item → Item → Prop
  | none, _ => True
  | some p, i => i.kind = .package ∧ w.Walks c p.location i.location ∨
      i.kind = .file ∧ i.location ∈ c.testFiles p.location (w.entries p.location)

/-- Below the item of a directory stand its test files, and below a root its packages too. -/
structure IsFilled (w : Workspace) (c : Conventions) (f : Forest) (n : ItemNo) (i : Item) :
    Prop where
  files : ∀ file ∈ c.testFiles i.location (w.entries i.location), f.HasAt (.under n) .file file
  packages : i.kind.isRoot = true → ∀ p, p ≠ i.location → w.Walks c i.location p →
    w.nearestManifest c p = ownerOfRoot i → c.testFiles p (w.entries p) ≠ [] →
      f.HasAt (.under n) .package p

theorem IsFilled.grows {f g : Forest} (hfg : f.Grows g) {n : ItemNo} {i : Item}
    (h : IsFilled w c f n i) : IsFilled w c g n i where
  files := fun file hfile => (h.files file hfile).grows hfg
  packages := fun hroot p hne hwalk hown htest => (h.packages hroot p hne hwalk hown htest).grows hfg

theorem expandTop_hasAt (hw : w.IsInMemory) (h : e.IsOrderly w.cwd (.ofWorkspace w c))
    (hc : e.conventions = c) (hshown : e.forest.IsOrderly w.cwd (IsShown w c))
    (hcovers : (e.surveyed w).survey.Covers w c e.folders) :
    ∃ e', e.expandTop w = .ok e' ∧ e'.forest.IsOrderly w.cwd (IsShown w c) ∧
      ∀ f ∈ e.folders, ∀ d, w.Walks c f d → c.hasSource (w.entries d) = true →
        ∃ kind location, w.IsRootFor c f d kind location ∧
          e'.forest.HasAt .top kind location := by
  have hJ := Judgement.holds_ofWorkspace w c
  have hs := h.surveyed hw (hc.symm ▸ hJ)
  have hgrows := grows_surveyed e w
  rw [← forest_surveyed e w] at hshown
  rw [← hgrows.folders] at hcovers ⊢
  rw [← hgrows.conventions] at hc
  unfold expandTop
  generalize e.surveyed w = s at hs hshown hcovers hc ⊢
  subst hc
  have hroots := (Survey.buildRoots_spec hw hJ hs.survey hs.folders).1
  have hhas : ∀ f ∈ s.folders, ∀ d, w.Walks s.conventions f d →
      s.conventions.hasSource (w.entries d) = true →
        ∃ kind location, w.IsRootFor s.conventions f d kind location ∧
          Survey.HasRoot (s.survey.buildRoots w s.conventions s.folders).1 kind location :=
    fun f hf d hd hsource => Survey.buildRoots_covers hw hcovers hs.folders hf hd hsource
  simp only
  generalize s.survey.buildRoots w s.conventions s.folders = found at hroots hhas ⊢
  obtain ⟨e', hall, he', -, hput⟩ := ensureAll_hasAt (e := { s with survey := found.2 })
    hshown .top rfl found.1 fun k hk => by
      have hroot := hroots k hk
      exact ⟨Kind.isLeaf_eq_false_of_isRoot hroot.isRoot, isLocation_of_isRoot hJ hs.folders hroot,
        trivial⟩
  refine ⟨e', hall, he', ?_⟩
  intro f hf d hd hsource
  obtain ⟨kind, location, hrootfor, k, hk, rfl, rfl⟩ := hhas f hf d hd hsource
  exact ⟨k.kind, k.location, hrootfor, hput k hk⟩

theorem expandRoot_fills (hw : w.IsInMemory) (h : e.IsOrderly w.cwd (.ofWorkspace w c))
    (hc : e.conventions = c) (hshown : e.forest.IsOrderly w.cwd (IsShown w c)) {n : ItemNo}
    {i : Item} (hi : e.forest.item? n = some i)
    (hown : w.nearestManifest c i.location = ownerOfRoot i) :
    ∃ e', e.expandRoot w n i = .ok e' ∧ e'.forest.IsOrderly w.cwd (IsShown w c) ∧
      IsFilled w c e'.forest n i := by
  have hJ := Judgement.holds_ofWorkspace w c
  have hs := h.surveyed hw (hc.symm ▸ hJ)
  have hl := (h.forest.genuine n i hi).location
  rw [← forest_surveyed e w] at hshown hi
  rw [← (grows_surveyed e w).conventions] at hc
  unfold expandRoot
  generalize e.surveyed w = s at hs hshown hc hi ⊢
  subst hc
  have hpackages := fun p => Survey.mem_rootChildren_iff (p := p) hw hJ (fun d o ho => ho)
    hs.survey hl hown
  have hfiles := Survey.files_rootChildren w s.conventions s.survey hl (ownerOfRoot i)
  simp only
  generalize s.survey.rootChildren w s.conventions i.location (ownerOfRoot i) = found
    at hpackages hfiles ⊢
  have howner := Forest.ownerAt_under hi
  obtain ⟨e', hall, he', -, hput⟩ := ensureAll_hasAt (e := { s with survey := found.2.2 })
    hshown (.under n) howner
    (found.1.map (Container.plain .package) ++ found.2.1.map (Container.plain .file))
    fun k hk => by
      rcases List.mem_append.mp hk with hk | hk
      · obtain ⟨p, hp, rfl⟩ := List.mem_map.mp hk
        obtain ⟨-, hwalk, -, -⟩ := (hpackages p).mp hp
        exact ⟨rfl, (hwalk.isAtOrBelow hw hl).1, Or.inl ⟨rfl, hwalk⟩⟩
      · obtain ⟨f, hf, rfl⟩ := List.mem_map.mp hk
        rw [hfiles] at hf
        obtain ⟨name, hname, -, rfl⟩ := Conventions.mem_testFiles hw hf
        exact ⟨rfl, hl.below hname, Or.inr ⟨rfl, hf⟩⟩
  refine ⟨e', hall, he', ?_, ?_⟩
  · intro file hfile
    rw [← hfiles] at hfile
    exact hput _ (List.mem_append_right _ (List.mem_map_of_mem hfile))
  · intro _ p hne hwalk hpown htest
    have hp := (hpackages p).mpr ⟨hne, hwalk, hpown, htest⟩
    exact hput _ (List.mem_append_left _ (List.mem_map_of_mem hp))

theorem expandPackage_fills (hw : w.IsInMemory) (h : e.IsOrderly w.cwd (.ofWorkspace w c))
    (hc : e.conventions = c) (hshown : e.forest.IsOrderly w.cwd (IsShown w c)) {n : ItemNo}
    {i : Item} (hi : e.forest.item? n = some i) (hpackage : i.kind = .package) :
    ∃ e', e.expandPackage w n i = .ok e' ∧ e'.forest.IsOrderly w.cwd (IsShown w c) ∧
      IsFilled w c e'.forest n i := by
  have hl := (h.forest.genuine n i hi).location
  have hfiles := Survey.files_packageFiles w e.conventions e.survey hl
  subst hc
  unfold expandPackage
  generalize e.survey.packageFiles w e.conventions i.location = found at hfiles ⊢
  have howner := Forest.ownerAt_under hi
  obtain ⟨e', hall, he', -, hput⟩ := ensureAll_hasAt (e := { e with survey := found.2 })
    hshown (.under n) howner (found.1.map (Container.plain .file)) fun k hk => by
      obtain ⟨f, hf, rfl⟩ := List.mem_map.mp hk
      rw [hfiles] at hf
      obtain ⟨name, hname, -, rfl⟩ := Conventions.mem_testFiles hw hf
      exact ⟨rfl, hl.below hname, Or.inr ⟨rfl, hf⟩⟩
  refine ⟨e', hall, he', ?_, ?_⟩
  · intro file hfile
    rw [← hfiles] at hfile
    exact hput _ (List.mem_map_of_mem hfile)
  · intro hroot
    rw [hpackage] at hroot
    exact absurd hroot (by decide)

/-! ## The full tree -/

/-- An explorer in order, in whose tree every item was come to from the one above it. -/
structure IsFaithful (w : Workspace) (c : Conventions) (e : Explorer) : Prop where
  orderly : e.IsOrderly w.cwd (.ofWorkspace w c)
  conventions : e.conventions = c
  shown : e.forest.IsOrderly w.cwd (IsShown w c)

theorem call_expand_fills (hw : w.IsInMemory) (h : e.IsFaithful w c) (p : SymbolProvider)
    {n : ItemNo} (hn : e.IsDirectoryItem n) :
    ∃ e', e.call w p (.expand n) = .ok (.done, e') ∧ e'.IsFaithful w c ∧ e.Grows e' ∧
      ∀ i, e.forest.item? n = some i → IsFilled w c e'.forest n i := by
  have horderly := h.orderly.forest
  rw [h.conventions] at horderly
  have hJ : (Judgement.ofWorkspace w c).Holds w e.conventions := by
    rw [h.conventions]
    exact Judgement.holds_ofWorkspace w c
  obtain ⟨e', hcall, he', hgrows⟩ := call_expand_spec hw hJ h.orderly p hn
  obtain ⟨htree, i, hi, hkind⟩ := hn
  have hattached := (h.orderly.isAttached_iff n).mpr htree
  have hfills : e'.forest.IsOrderly w.cwd (IsShown w c) ∧ IsFilled w c e'.forest n i := by
    -- the same expansion, seen from what it puts in
    have hsame : ∀ {s : Explorer}, e.call w p (.expand n) = .ok (.done, s) → s = e' := by
      intro s hcall'
      rw [hcall'] at hcall
      exact congrArg Prod.snd (Except.ok.inj hcall)
    rcases hkind with hroot | hpackage
    · have hisroot := (horderly.root_stands htree hi hroot).2
      have hown := Judgement.nearestManifest_of_isRoot (horderly.genuine n i hi).location hisroot
      obtain ⟨s, hexpand, hs, hfilled⟩ :=
        expandRoot_fills hw h.orderly h.conventions h.shown hi hown
      exact hsame (call_expand_of_expandRoot p hi hattached hroot hexpand) ▸ ⟨hs, hfilled⟩
    · obtain ⟨s, hexpand, hs, hfilled⟩ :=
        expandPackage_fills hw h.orderly h.conventions h.shown hi hpackage
      exact hsame (call_expand_of_expandPackage p hi hattached hpackage hexpand) ▸ ⟨hs, hfilled⟩
  refine ⟨e', hcall, ⟨he', hgrows.conventions.trans h.conventions, hfills.1⟩, hgrows, ?_⟩
  intro j hj
  rw [hi, Option.some.injEq] at hj
  exact hj ▸ hfills.2

theorem expandEach_fills (hw : w.IsInMemory) (h : e.IsFaithful w c) (p : SymbolProvider)
    {ns : List ItemNo} (hns : ∀ n ∈ ns, e.IsDirectoryItem n) :
    ∃ e', e.expandEach w p ns = .ok e' ∧ e'.IsFaithful w c ∧ e.Grows e' ∧
      ∀ n ∈ ns, ∀ i, e.forest.item? n = some i → IsFilled w c e'.forest n i := by
  induction ns generalizing e with
  | nil => exact ⟨e, rfl, h, Grows.refl e, by simp⟩
  | cons n ns ih =>
      obtain ⟨s, hcall, hs, hgrows, hfilled⟩ := call_expand_fills hw h p (hns n (by simp))
      obtain ⟨e', heach, he', hgrows', hfilled'⟩ :=
        ih hs fun m hm => (hns m (by simp [hm])).grows hgrows
      refine ⟨e', ?_, he', hgrows.trans hgrows', ?_⟩
      · rw [expandEach, hcall]
        exact heach
      · intro m hm i hi
        rcases List.mem_cons.mp hm with rfl | hm
        · exact (hfilled i hi).grows hgrows'.forest
        · exact hfilled' m hm i (hgrows.forest.keeps m i hi)

theorem isFaithful_start (hw : w.IsInMemory) (c : Conventions) (folders : List String) :
    (start w c folders).IsFaithful w c :=
  ⟨isOrderly_start _ hw.rooted c folders, rfl, Forest.isArranged_empty _ _⟩

/-- The top items of a new explorer are enough for all sources to which walks from its folders
come. -/
theorem call_expandTop_hasAt (hw : w.IsInMemory) (c : Conventions) (folders : List String)
    (p : SymbolProvider) :
    ∃ e, (start w c folders).call w p .expandTop = .ok (.done, e) ∧ e.IsFaithful w c ∧
      (start w c folders).Grows e ∧
      ∀ f ∈ (start w c folders).folders, ∀ d, w.Walks c f d → c.hasSource (w.entries d) = true →
        ∃ kind location, w.IsRootFor c f d kind location ∧ e.forest.HasAt .top kind location := by
  have hstart := isFaithful_start hw c folders
  obtain ⟨e, hcall, he, hgrows⟩ :=
    call_expandTop_spec hw (Judgement.holds_ofWorkspace w c) hstart.orderly p
  have hcovers : ((start w c folders).surveyed w).survey.Covers w c (start w c folders).folders :=
    Survey.covers_build hw _ hstart.orderly.folders
  obtain ⟨s, hexpand, hs, hroots⟩ := expandTop_hasAt hw hstart.orderly rfl hstart.shown hcovers
  obtain rfl : s = e := by
    simp only [call, begin, hexpand, bind, Except.bind] at hcall
    exact congrArg Prod.snd (Except.ok.inj hcall)
  exact ⟨s, hcall, ⟨he, hgrows.conventions, hs⟩, hgrows, hroots⟩

/-- The root of a directory has its owner. -/
theorem isRoot_of_isRootFor {f d : String} {i : Item} (hlocation : IsLocation i.location)
    (hroot : w.IsRootFor c f d i.kind i.location) :
    i.kind.isRoot = true ∧ w.nearestManifest c d = ownerOfRoot i := by
  unfold ownerOfRoot
  rcases hroot with ⟨hk, hown⟩ | ⟨hk, hown, -⟩
  · rw [hown, if_pos ⟨hk, hlocation.ne_empty⟩, hk]
    exact ⟨rfl, rfl⟩
  · rw [hown, if_neg fun hmodule => Kind.noConfusion (hk.symm.trans hmodule.1), hk]
    exact ⟨rfl, rfl⟩

/-- The full tree holds every test file in a directory to which walks from a folder and from its
root come, and holds it below that root. -/
theorem expandFully_holdsFileBelow (hw : w.IsInMemory) (hc : c.TestsAreSources)
    (folders : List String) (p : SymbolProvider) :
    ∃ e, (start w c folders).expandFully w p = .ok e ∧ e.IsFaithful w c ∧
      e.folders = (start w c folders).folders ∧
      ∀ f ∈ e.folders, ∀ d, w.Walks c f d →
        ∀ kind location, w.IsRootFor c f d kind location → w.Walks c location d →
          ∀ file ∈ c.testFiles d (w.entries d), ∃ r q, e.forest.item? r = some q ∧
            q.kind = kind ∧ q.location = location ∧ e.forest.HoldsFileBelow r file := by
  obtain ⟨s, hcall, hs, hgrows, hroots⟩ := call_expandTop_hasAt hw c folders p
  obtain ⟨t, heach, ht, hgrowst, hfilled⟩ := expandEach_fills hw hs p fun n hn =>
    hs.orderly.isDirectoryItem_top hn
  obtain ⟨e, heach', he, hgrows', hfilled'⟩ := expandEach_fills hw ht p fun n hn =>
    ht.orderly.isDirectoryItem_packages hn
  have hfolders : e.folders = (start w c folders).folders :=
    (hgrows'.folders.trans hgrowst.folders).trans hgrows.folders
  refine ⟨e, ?_, he, hfolders, ?_⟩
  · unfold expandFully
    rw [hcall]
    simp only [bind, Except.bind, heach]
    exact heach'
  · intro f hf d hd kind location hrootfor hwalk file hfile
    rw [hfolders] at hf
    obtain ⟨kind', location', hrootfor', n, hn, i, hi, rfl, rfl⟩ :=
      hroots f hf d hd (hc.hasSource hw hfile)
    obtain ⟨rfl, rfl⟩ := hrootfor.unique hrootfor'
    have hlocation := (hs.orderly.forest.genuine n i hi).location
    obtain ⟨hroot, hown⟩ := isRoot_of_isRootFor hlocation hrootfor
    have hfill := hfilled n hn i hi
    have hnt : t.forest.IsBelow n n := (Forest.IsBelow.top hn).grows hgrowst.forest
    have hie := hgrows'.forest.keeps n i (hgrowst.forest.keeps n i hi)
    refine ⟨n, i, hie, rfl, rfl, ?_⟩
    by_cases hdi : d = i.location
    · -- the file lies in the root itself
      subst hdi
      exact ((hfill.files file hfile).grows hgrows'.forest).holdsFileBelow
        (hnt.grows hgrows'.forest)
    · obtain ⟨m, hm, j, hj, hpackage, rfl⟩ :=
        hfill.packages hroot d hdi hwalk hown (List.ne_nil_of_mem hfile)
      have hmt : t.forest.IsBelow n m := .child hnt hm
      have hmem : m ∈ t.packages := ht.orderly.mem_packages_iff.mpr ⟨hmt.inTree, j, hj, hpackage⟩
      exact ((hfilled' m hmem j hj).files file hfile).holdsFileBelow (hmt.grows hgrows'.forest)

/-- The full tree holds every test file in a directory to which walks from a folder and from the
owner come. -/
theorem expandFully_holdsFile (hw : w.IsInMemory) (hc : c.TestsAreSources)
    (folders : List String) (p : SymbolProvider) :
    ∃ e, (start w c folders).expandFully w p = .ok e ∧ e.IsFaithful w c ∧
      e.folders = (start w c folders).folders ∧
      ∀ f ∈ e.folders, ∀ d, w.Walks c f d →
        (w.nearestManifest c d = none ∨ ∃ m, w.nearestManifest c d = some m ∧ w.Walks c m d) →
          ∀ file ∈ c.testFiles d (w.entries d), e.forest.HoldsFile file := by
  obtain ⟨e, hexpand, he, hfolders, hall⟩ := expandFully_holdsFileBelow hw hc folders p
  refine ⟨e, hexpand, he, hfolders, ?_⟩
  intro f hf d hd howner file hfile
  obtain ⟨kind, location, hrootfor, hwalk⟩ :
      ∃ kind location, w.IsRootFor c f d kind location ∧ w.Walks c location d := by
    rcases howner with hnone | ⟨m, hm, hwalk⟩
    · exact ⟨.workspace, f, Or.inr ⟨rfl, hnone, rfl⟩, hd⟩
    · exact ⟨.module, m, Or.inl ⟨rfl, hm⟩, hwalk⟩
  obtain ⟨r, q, -, -, -, hheld⟩ := hall f hf d hd kind location hrootfor hwalk file hfile
  exact hheld.holdsFile

/-- If the full tree of a new explorer has a file, it is one of the items that are listed. -/
theorem file_mem_of_holdsFile (hw : w.IsInMemory) {folders : List String} {p : SymbolProvider}
    (hexpand : (start w c folders).expandFully w p = .ok e) {file : String}
    (h : e.forest.HoldsFile file) :
    some Kind.file ∈ (e.forest.walk .top).map fun n => (e.forest.item? n).map Item.kind := by
  obtain ⟨e', hexpand', he, -⟩ := expandFully_spec hw (Judgement.holds_ofWorkspace w c)
    (isOrderly_start _ hw.rooted c folders) p
  obtain rfl : e' = e := Except.ok.inj (hexpand'.symm.trans hexpand)
  obtain ⟨n, i, hn, hi, hfile, -⟩ := h
  exact List.mem_map.mpr ⟨n, (he.mem_walk_top_iff n).mpr hn, by rw [hi, Option.map_some, hfile]⟩

end Explorer

end TestAtlas
