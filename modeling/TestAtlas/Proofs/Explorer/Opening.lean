import TestAtlas.Proofs.Explorer.Chain

/-!
# Opening a file agrees with filling in the tree

The tree can be filled in down to the files from the top, or a file can be opened first and brings
the items above it along.  Both come to the same chain of items: opening a file that the full tree
has makes no container, and opening it in an empty tree makes just those that stand above it in the
full tree.  The main statement is `update_agrees_with_expandFully`.
-/

namespace TestAtlas.Explorer

open TestAtlas.Path

/-! ## The full tree -/

/-- Fills in what is directly below each of several items. -/
def expandEach (e : Explorer) (w : Workspace) (p : SymbolProvider) :
    List ItemNo → Except Refusal Explorer
  | [] => .ok e
  | n :: ns => do
    let (_, e) ← e.call w p (.expand n)
    e.expandEach w p ns

/-- The packages of the tree. -/
def packages (e : Explorer) : List ItemNo :=
  (e.forest.walk .top).filter fun n => (e.forest.item? n).any fun i => i.kind == .package

/-- Fills in the tree down to the files: the top items, what is below each of them, and what is
below each package. -/
def expandFully (e : Explorer) (w : Workspace) (p : SymbolProvider) :
    Except Refusal Explorer := do
  let (_, e) ← e.call w p .expandTop
  let e ← e.expandEach w p e.forest.top
  e.expandEach w p e.packages

variable {w : Workspace} {J : Judgement} {e : Explorer}

/-- The item is in the tree, and it is a root or a package. -/
def IsDirectoryItem (e : Explorer) (n : ItemNo) : Prop :=
  e.forest.InTree n ∧ ∃ i, e.forest.item? n = some i ∧ (i.kind.isRoot = true ∨ i.kind = .package)

theorem IsDirectoryItem.grows {e' : Explorer} (hgrows : e.Grows e') {n : ItemNo}
    (h : e.IsDirectoryItem n) : e'.IsDirectoryItem n := by
  obtain ⟨hn, i, hi, hkind⟩ := h
  exact ⟨hn.grows hgrows.forest, i, hgrows.forest.keeps n i hi, hkind⟩

theorem call_expandTop_spec (hw : w.IsInMemory) (hJ : J.Holds w e.conventions)
    (h : e.IsOrderly w.cwd J) (p : SymbolProvider) :
    ∃ e', e.call w p .expandTop = .ok (.done, e') ∧ e'.IsOrderly w.cwd J ∧ e.Grows e' := by
  obtain ⟨e', hexpand, he', hgrows⟩ := expandTop_spec hw hJ h
  refine ⟨e', ?_, he', hgrows⟩
  simp only [call, begin, hexpand, bind, Except.bind]
  rfl

theorem call_expand_of_expandRoot {n : ItemNo} {i : Item} (p : SymbolProvider)
    (hi : e.forest.item? n = some i) (hattached : e.forest.isAttached n = true)
    (hroot : i.kind.isRoot = true) {e' : Explorer} (hexpand : e.expandRoot w n i = .ok e') :
    e.call w p (.expand n) = .ok (.done, e') := by
  simp only [call, begin, beginExpand, hi, hattached, Bool.not_true, Bool.false_eq_true, if_false]
  cases hk : i.kind with
  | module | workspace =>
      simp only [hexpand, bind, Except.bind]
      rfl
  | package | file | test | benchmark | «example» =>
      rw [hk] at hroot
      exact absurd hroot (by decide)

theorem call_expand_of_expandPackage {n : ItemNo} {i : Item} (p : SymbolProvider)
    (hi : e.forest.item? n = some i) (hattached : e.forest.isAttached n = true)
    (hpackage : i.kind = .package) {e' : Explorer} (hexpand : e.expandPackage w n i = .ok e') :
    e.call w p (.expand n) = .ok (.done, e') := by
  simp only [call, begin, beginExpand, hi, hattached, Bool.not_true, Bool.false_eq_true, if_false,
    hpackage, hexpand, bind, Except.bind]
  rfl

theorem call_expand_spec (hw : w.IsInMemory) (hJ : J.Holds w e.conventions)
    (h : e.IsOrderly w.cwd J) (p : SymbolProvider) {n : ItemNo} (hn : e.IsDirectoryItem n) :
    ∃ e', e.call w p (.expand n) = .ok (.done, e') ∧ e'.IsOrderly w.cwd J ∧ e.Grows e' := by
  obtain ⟨htree, i, hi, hkind⟩ := hn
  have hattached := (h.isAttached_iff n).mpr htree
  rcases hkind with hroot | hpackage
  · obtain ⟨e', hexpand, he', hgrows⟩ := expandRoot_spec hw hJ h hi hroot
    exact ⟨e', call_expand_of_expandRoot p hi hattached hroot hexpand, he', hgrows⟩
  · obtain ⟨e', hexpand, he', hgrows⟩ := expandPackage_spec hw h hi hpackage
    exact ⟨e', call_expand_of_expandPackage p hi hattached hpackage hexpand, he', hgrows⟩

theorem expandEach_spec (hw : w.IsInMemory) (hJ : J.Holds w e.conventions)
    (h : e.IsOrderly w.cwd J) (p : SymbolProvider) {ns : List ItemNo}
    (hns : ∀ n ∈ ns, e.IsDirectoryItem n) :
    ∃ e', e.expandEach w p ns = .ok e' ∧ e'.IsOrderly w.cwd J ∧ e.Grows e' := by
  induction ns generalizing e with
  | nil => exact ⟨e, rfl, h, Grows.refl e⟩
  | cons n ns ih =>
      obtain ⟨e', hcall, he', hgrows⟩ := call_expand_spec hw hJ h p (hns n (by simp))
      rw [← hgrows.conventions] at hJ
      obtain ⟨e'', heach, he'', hgrows'⟩ :=
        ih hJ he' fun m hm => (hns m (by simp [hm])).grows hgrows
      refine ⟨e'', ?_, he'', hgrows.trans hgrows'⟩
      rw [expandEach, hcall]
      exact heach

theorem IsOrderly.isDirectoryItem_top {cwd : String} (h : e.IsOrderly cwd J) {n : ItemNo}
    (hn : n ∈ e.forest.top) : e.IsDirectoryItem n := by
  obtain ⟨i, owner, hi, howner, hfits⟩ := h.forest.of_mem (show n ∈ e.forest.members .top from hn)
  rw [Forest.ownerAt, Option.some.injEq] at howner
  subst howner
  cases hfits with
  | root hroot => exact ⟨.top hn, i, hi, Or.inl hroot.isRoot⟩

theorem IsOrderly.mem_packages_iff {cwd : String} (h : e.IsOrderly cwd J) {n : ItemNo} :
    n ∈ e.packages ↔ e.forest.InTree n ∧ ∃ i, e.forest.item? n = some i ∧ i.kind = .package := by
  rw [packages, List.mem_filter, h.mem_walk_top_iff]
  simp [Option.any_eq_true]

theorem IsOrderly.isDirectoryItem_packages {cwd : String} (h : e.IsOrderly cwd J) {n : ItemNo}
    (hn : n ∈ e.packages) : e.IsDirectoryItem n := by
  obtain ⟨htree, i, hi, hkind⟩ := h.mem_packages_iff.mp hn
  exact ⟨htree, i, hi, Or.inr hkind⟩

/-- The tree can always be filled in down to the files. -/
theorem expandFully_spec (hw : w.IsInMemory) (hJ : J.Holds w e.conventions)
    (h : e.IsOrderly w.cwd J) (p : SymbolProvider) :
    ∃ e', e.expandFully w p = .ok e' ∧ e'.IsOrderly w.cwd J ∧ e.Grows e' := by
  obtain ⟨s, hcall, hs, hgrows⟩ := call_expandTop_spec hw hJ h p
  have hJs : J.Holds w s.conventions := hgrows.conventions ▸ hJ
  -- each item to be filled in is still in the tree when its turn comes
  obtain ⟨t, heach, ht, hgrowst⟩ := expandEach_spec hw hJs hs p fun n hn =>
    hs.isDirectoryItem_top hn
  have hJt : J.Holds w t.conventions := hgrowst.conventions ▸ hJs
  obtain ⟨e', heach', he', hgrows'⟩ := expandEach_spec hw hJt ht p fun n hn =>
    ht.isDirectoryItem_packages hn
  refine ⟨e', ?_, he', (hgrows.trans hgrowst).trans hgrows'⟩
  unfold expandFully
  rw [hcall]
  simp only [bind, Except.bind, heach]
  exact heach'

/-! ## Opening a file -/

/-- The leaves of one file item were brought up to date, and nothing else was made or changed. -/
structure HasRefreshed (w : Workspace) (p : SymbolProvider) (d : Document) (e e' : Explorer)
    (n : ItemNo) (location : String) : Prop where
  items : ∀ m i, e.forest.item? m = some i → e'.forest.item? m = some i
  frame : ∀ place, place ≠ .under n → e'.forest.members place = e.forest.members place
  leaves : ∀ m ∈ e'.forest.children n, ∃ i, e'.forest.item? m = some i ∧ i.kind.isLeaf = true
  ids : ∀ id, id ∈ e'.forest.ids (.under n) ↔
    ∃ leaf ∈ p.leaves d, Id.build w.cwd location leaf.kind (some leaf.name) = .ok id

/-- The chain of items down to a file is the same in both trees, and the second tree has no other
items than these and leaves. -/
structure HasSameChain (e e' : Explorer) (n m : ItemNo) (ns ms : List ItemNo) : Prop where
  first : e.forest.Lineage ns n
  second : e'.forest.Lineage ms m
  same : List.Forall₂
    (fun k l => ∃ i, e.forest.item? k = some i ∧ e'.forest.item? l = some i) ns ms
  only : ∀ k i, e'.forest.InTree k → e'.forest.item? k = some i → i.kind.isLeaf = false → k ∈ ms

/-- A file that is in the tree can be opened: its leaves are brought up to date. -/
theorem update_of_inTree (hw : w.IsInMemory) {c : Conventions}
    (h : e.IsOrderly w.cwd (.ofWorkspace w c)) (hc : e.conventions = c) (p : SymbolProvider)
    {n : ItemNo} {i : Item} (hn : e.forest.InTree n) (hi : e.forest.item? n = some i)
    (hfile : i.kind = .file) (hone : e.HasOneFolderAt (directoryPart i.location)) {d : Document}
    (hpath : d.path = i.location) (htest : c.isTestFile (base w.cwd d.path) = true) :
    ∃ r e', e.call w p (.update d) = .ok (.reconciled (some r), e') ∧
      HasRefreshed w p d e e' n i.location := by
  have hs := h.report (symbolEvents p d)
  -- the file is found where it is, so only its leaves can change
  obtain ⟨s, hensure, hs', hgrows, hforest⟩ := ensureFile_of_inTree hw hs hc hn hi hfile hone
  rw [← hpath] at hensure
  have hleaves := p.isGenuine_leaves d
  have hi' := hgrows.forest.keeps n i hi
  obtain ⟨r, e', hupdate, he', hconventions, hfolders, -, hdone⟩ :=
    finishUpdate_of_ensureFile hs' hensure hi' hfile hleaves
  rw [hforest] at hdone
  refine ⟨r, e', ?_, ?_⟩
  · rw [call_update_of_isTestFile (hc.symm ▸ htest)]
    exact finish_update_of_finishUpdate hupdate
  · constructor
    · exact hdone.keeps
    · exact hdone.frame
    · intro m hm
      exact Forest.isLeaf_of_mem_children he'.forest (hdone.keeps n i hi) hfile hm
    · intro id
      rw [hdone.mem_ids_iff, Forest.mem_wantedOf_iff hleaves]

/-- Items made for the same containers are the same. -/
theorem forall₂_of_matches {f g : Forest} {cwd : String} {ns ms : List ItemNo}
    {ks : List Container} (h : f.Matches cwd ns ks) (h' : g.Matches cwd ms ks) :
    List.Forall₂ (fun k l => ∃ i, f.item? k = some i ∧ g.item? l = some i) ns ms := by
  induction h generalizing ms with
  | nil =>
      rw [List.forall₂_nil_right_iff.mp h']
      exact .nil
  | @cons n k ns ks hn _ ih =>
      obtain ⟨m, rest, hm, hrest, rfl⟩ := List.forall₂_cons_right_iff.mp h'
      exact .cons ⟨_, hn, hm⟩ (ih hrest)

/-- Two trees with the same folders have the same chain above a file. -/
theorem exists_same_chain {c : Conventions} {t : Explorer}
    (h : e.IsOrderly w.cwd (.ofWorkspace w c)) (h' : t.IsOrderly w.cwd (.ofWorkspace w c))
    (hc : e.conventions = c) (hc' : t.conventions = c) (hfolders : t.folders = e.folders)
    {n m : ItemNo} {i j : Item} (hn : e.forest.InTree n) (hi : e.forest.item? n = some i)
    (hfile : i.kind = .file) (hm : t.forest.InTree m) (hj : t.forest.item? m = some j)
    (hfile' : j.kind = .file) (hlocation : j.location = i.location) {directory : String}
    (hdirectory : directoryPart i.location = directory) (hone : e.HasOneFolderAt directory) :
    ∃ ns ms, e.forest.Lineage ns n ∧ t.forest.Lineage ms m ∧ List.Forall₂
      (fun k l => ∃ i, e.forest.item? k = some i ∧ t.forest.item? l = some i) ns ms := by
  have hone' : t.HasOneFolderAt directory := by
    intro f hf g hg
    rw [hfolders] at hf hg
    exact hone f hf g hg
  obtain ⟨root, r, haround, -, htop, hitem, hchain⟩ :=
    h.exists_chain hc hn hi hfile hdirectory hone
  obtain ⟨root', q, haround', -, htop', hitem', hchain'⟩ :=
    h'.exists_chain hc' hm hj hfile' (hlocation ▸ hdirectory) hone'
  have hroot : root' = root := by
    rw [folderAround, hfolders, ← folderAround, haround, Option.some.injEq] at haround'
    exact haround'.symm
  rw [hroot] at hitem' hchain'
  rw [hlocation] at hchain'
  obtain ⟨ns, hns, hmatches⟩ := hchain.lineage (.top htop)
  obtain ⟨ms, hms, hmatches'⟩ := hchain'.lineage (.top htop')
  refine ⟨r :: ns, q :: ms, hns, hms, .cons ⟨_, hitem, hitem'⟩ ?_⟩
  exact forall₂_of_matches hmatches hmatches'

/-- In an empty tree, a file is opened below the chain that a tree in order has above it. -/
theorem update_of_empty (hw : w.IsInMemory) {c : Conventions} {s : Explorer}
    (h : e.IsOrderly w.cwd (.ofWorkspace w c)) (hs : s.IsOrderly w.cwd (.ofWorkspace w c))
    (hc : e.conventions = c) (hsc : s.conventions = c) (hfolders : e.folders = s.folders)
    (hempty : s.forest.nodes.size = 0) (p : SymbolProvider) {n : ItemNo} {i : Item}
    (hn : e.forest.InTree n) (hi : e.forest.item? n = some i) (hfile : i.kind = .file)
    {directory : String} (hdirectory : directoryPart i.location = directory)
    (hone : e.HasOneFolderAt directory) {d : Document}
    (hcanonical : canonical w.cwd d.path = i.location)
    (htest : c.isTestFile (base w.cwd d.path) = true) :
    ∃ r m e' ns ms, s.call w p (.update d) = .ok (.reconciled (some r), e') ∧
      e.HasSameChain e' n m ns ms := by
  have hJ : (Judgement.ofWorkspace w c).Holds w s.conventions := by
    rw [hsc]
    exact Judgement.holds_ofWorkspace w c
  have htest' : s.conventions.isTestFile (base w.cwd d.path) = true := by
    rw [hsc]
    exact htest
  obtain ⟨result, e', hfinish, he', t, owner, placed, hupdated⟩ :=
    finish_update_spec hw hJ hs p htest'
  rw [hcanonical] at hupdated
  have hplacement := hupdated.placement
  rw [hdirectory] at hplacement
  have howner : owner = w.nearestManifest c directory := hplacement.owns
  subst howner
  cases placed with
  | none =>
      -- the full tree has the file, so its directory is not left out
      obtain ⟨root, -, haround, hleft, -⟩ := h.exists_chain hc hn hi hfile hdirectory hone
      have haround' : (w.nearestManifest c directory <|>
          (s.report (symbolEvents p d)).folderAround w directory) = some root := by
        rw [← haround, folderAround, folderAround, hfolders]
        rfl
      have hout : isLeftOut s.conventions directory root = true :=
        hplacement.ignored rfl root haround'
      rw [hsc, hleft] at hout
      exact absurd hout (by simp)
  | some m =>
      obtain ⟨root, -, hplaced⟩ := hplacement.placed m rfl
      obtain ⟨j, hj, hjfile, hjlocation⟩ := hplaced.item
      obtain ⟨rec, hrec, hdone⟩ := hupdated.reconciled m rfl
      obtain ⟨way, hway, -, hnew⟩ := hplaced
      rw [List.nil_append] at hway
      have hm : t.forest.InTree m := Forest.inTree_iff_lineage.mpr ⟨way, hway⟩
      obtain ⟨ns, ms, hns, hms, hsame⟩ := exists_same_chain h hupdated.orderly hc
        (hupdated.grows.conventions.trans hsc) (hupdated.grows.folders.trans hfolders.symm)
        hn hi hfile hm hj hjfile hjlocation hdirectory hone
      have hforest := hupdated.orderly.forest
      -- the way on which everything new stands is the one way to the file
      have huniq := hway.unique hforest.consistent hms
      have hnonleaf : j.kind.isLeaf = false := by
        rw [hjfile]
        rfl
      refine ⟨rec, m, e', ns, ms, ?_, ?_⟩
      · rw [call_update_of_isTestFile htest', hfinish, hrec]
      · constructor
        · exact hns
        · exact hms.of_isReconciled hforest hj hjfile hdone hj hnonleaf
        · apply List.Forall₂.imp _ hsame
          rintro k l ⟨x, hx, hx'⟩
          exact ⟨x, hx, hdone.keeps l x hx'⟩
        · intro k l hk hl hleaf
          have hlt := hk.lt_size_of_isReconciled hforest.consistent he'.forest hj hjfile hdone hl
            hleaf
          have hfresh : s.forest.nodes.size ≤ k := by omega
          have hmem : k ∈ way := hnew k hfresh hlt
          rw [huniq] at hmem
          exact hmem

theorem hasOneFolderAt_of_within {c : Conventions} {folders : List String} {directory : String}
    (hdirectory : IsLocation directory) (he : e.folders = (start w c folders).folders)
    (hone : ∀ f ∈ folders, ∀ g ∈ folders, isWithin w.cwd directory f = true →
      isWithin w.cwd directory g = true → canonical w.cwd f = canonical w.cwd g) :
    e.HasOneFolderAt directory := by
  intro f hf g hg hdf hdg
  have hself := canonical_of_isLocation hdirectory w.cwd
  rw [he] at hf hg
  obtain ⟨f', hf', rfl⟩ := List.mem_map.mp (List.mem_eraseDups.mp hf)
  obtain ⟨g', hg', rfl⟩ := List.mem_map.mp (List.mem_eraseDups.mp hg)
  apply hone f' hf' g' hg'
  · rw [isWithin, hself]
    exact hdf
  · rw [isWithin, hself]
    exact hdg

/-- The tree can be filled in down to the files, and a file of the full tree whose directory lies in
one folder at most can be opened.  In the full tree this brings the leaves of its item up to date
and does nothing else.  In an empty tree it makes the same chain of items as the full tree has, and
no others but leaves. -/
theorem update_agrees_with_expandFully (hw : w.IsInMemory) (c : Conventions)
    (folders : List String) (p : SymbolProvider) :
    ∃ e, (start w c folders).expandFully w p = .ok e ∧
      ∀ n i, e.forest.InTree n → e.forest.item? n = some i → i.kind = .file →
        (∀ f ∈ folders, ∀ g ∈ folders, isWithin w.cwd (directoryPart i.location) f = true →
          isWithin w.cwd (directoryPart i.location) g = true →
            canonical w.cwd f = canonical w.cwd g) →
        ∀ text version,
          (∃ r e', e.call w p (.update ⟨i.location, text, version⟩) =
              .ok (.reconciled (some r), e') ∧
            HasRefreshed w p ⟨i.location, text, version⟩ e e' n i.location) ∧
          ∃ r m e' ns ms, (start w c folders).call w p (.update ⟨i.location, text, version⟩) =
              .ok (.reconciled (some r), e') ∧ e.HasSameChain e' n m ns ms := by
  have hJ := Judgement.holds_ofWorkspace w c
  have hstart := isOrderly_start (.ofWorkspace w c) hw.rooted c folders
  obtain ⟨e, hexpand, he, hgrows⟩ := expandFully_spec hw hJ hstart p
  refine ⟨e, hexpand, ?_⟩
  intro n i hn hi hfile hone text version
  have hc : e.conventions = c := hgrows.conventions
  have hlocation := (he.forest.genuine n i hi).location
  have hone' := hasOneFolderAt_of_within (isLocation_directoryPart hlocation) hgrows.folders hone
  have hcanonical := canonical_of_isLocation hlocation w.cwd
  obtain ⟨-, -, -, -, -, -, -, htest, -⟩ := he.forest.file_stands hn hi hfile
  rw [hc] at htest
  generalize hd : (⟨i.location, text, version⟩ : Document) = d
  have hpath : d.path = i.location := by rw [← hd]
  have htest' : c.isTestFile (base w.cwd d.path) = true := by
    rw [base, hpath, hcanonical]
    exact htest
  constructor
  · exact update_of_inTree hw he hc p hn hi hfile hone' hpath htest'
  · exact update_of_empty hw he hstart hc rfl hgrows.folders rfl p hn hi hfile rfl hone'
      (hpath ▸ hcanonical) htest'

/-- Opening a file in a package of a module first makes the module, the package and the file. -/
theorem update_agrees_with_expandFully_package :
    let w := Workspace.holding "/" [("/a/go.mod", ""), ("/a/b/x_test.go", "")]
    ∃ e n i r m e' ns ms, (start w .usual ["/"]).expandFully w .silent = .ok e ∧
      e.forest.InTree n ∧ e.forest.item? n = some i ∧ i.kind = .file ∧
      (start w .usual ["/"]).call w .silent (.update ⟨i.location, "", 0⟩) =
        .ok (.reconciled (some r), e') ∧ e.HasSameChain e' n m ns ms := by
  intro w
  have hw : w.IsInMemory := Workspace.isInMemory_holding (by decide) _
  have hview : ((start w .usual ["/"]).expandFully w .silent).toOption.map (fun e =>
      (e.forest.top, e.forest.children 0, e.forest.children 1,
        (e.forest.item? 2).map Item.kind)) = some ([0], [1], [2], some .file) := by
    decide +kernel
  obtain ⟨e, hexpand, hall⟩ := update_agrees_with_expandFully hw .usual ["/"] .silent
  obtain ⟨e₁, hexpand₁, hview⟩ := exists_ok_of_view hview
  rw [hexpand, Except.ok.injEq] at hexpand₁
  subst hexpand₁
  simp only [Prod.mk.injEq, Option.map_eq_some_iff] at hview
  obtain ⟨htop, hpackage, hfile, i, hi, hkind⟩ := hview
  have h0 : e.forest.InTree 0 := .top (by rw [htop]; simp)
  have h1 : e.forest.InTree 1 := .under h0 (by rw [hpackage]; simp)
  have h2 : e.forest.InTree 2 := .under h1 (by rw [hfile]; simp)
  have hone : ∀ f ∈ ["/"], ∀ g ∈ ["/"], isWithin w.cwd (directoryPart i.location) f = true →
      isWithin w.cwd (directoryPart i.location) g = true →
        canonical w.cwd f = canonical w.cwd g := by
    intro f hf g hg _ _
    rw [List.mem_singleton.mp hf, List.mem_singleton.mp hg]
  obtain ⟨-, r, m, e', ns, ms, hcall, hchain⟩ := hall 2 i h2 hi hkind hone "" 0
  exact ⟨e, 2, i, r, m, e', ns, ms, hexpand, h2, hi, hkind, hcall, hchain⟩

end TestAtlas.Explorer
