import TestAtlas.Proofs.Explorer.Home

/-!
# The chain above a file

By the location of a test file and the manifests it is settled which containers stand above its
item: the root that owns its directory, and a package unless the directory is that of the root.  A
file that is in the tree stands below exactly these containers (`IsOrderly.exists_chain`), so placing
it once more finds everything in place (`ensureFile_of_inTree`).
-/

namespace TestAtlas

open TestAtlas.Path

namespace Forest

variable {f : Forest} {cwd : String}

/-- There is one way only to an item. -/
theorem Lineage.unique (hf : f.IsConsistent) {ns ms : List ItemNo} {n : ItemNo}
    (h : f.Lineage ns n) (h' : f.Lineage ms n) : ns = ms := by
  induction h generalizing ms with
  | @top n hn =>
      cases h' with
      | top => rfl
      | under _ hn' => exact absurd hn' (hf.not_mem_children hn _)
  | @under ns m n _ hn ih =>
      -- an item at the top is below no other, and one below another has no second parent
      cases h' with
      | top hn' => exact absurd hn (hf.not_mem_children hn' m)
      | under hm' hn' =>
          rw [← hf.parent_unique hn hn'] at hm'
          rw [ih hm']

/-- From one item a way leads down to another through the items of the containers. -/
def HoldsChain (f : Forest) (cwd : String) : ItemNo → List Container → ItemNo → Prop
  | n, [], m => n = m
  | n, k :: ks, m =>
      ∃ l ∈ f.children n, f.item? l = some (k.item cwd) ∧ HoldsChain f cwd l ks m

/-- The items at hand are those made for the containers, in order. -/
def Matches (f : Forest) (cwd : String) (ns : List ItemNo) (ks : List Container) : Prop :=
  List.Forall₂ (fun n k => f.item? n = some (k.item cwd)) ns ks

theorem Matches.keeps {g : Forest} (hfg : f.Keeps g) {ns : List ItemNo} {ks : List Container}
    (h : f.Matches cwd ns ks) : g.Matches cwd ns ks :=
  List.Forall₂.imp (fun n _ hn => hfg n _ hn) h

theorem HoldsChain.lineage {n m : ItemNo} {ks : List Container} (h : f.HoldsChain cwd n ks m)
    {ns : List ItemNo} (hns : f.Lineage ns n) :
    ∃ ms, f.Lineage (ns ++ ms) m ∧ f.Matches cwd ms ks := by
  induction ks generalizing n ns with
  | nil =>
      obtain rfl : n = m := h
      refine ⟨[], ?_, .nil⟩
      rw [List.append_nil]
      exact hns
  | cons k ks ih =>
      obtain ⟨l, hl, hitem, hrest⟩ := h
      obtain ⟨ms, hms, hmatches⟩ := ih hrest (.under hns hl)
      rw [List.append_assoc] at hms
      exact ⟨l :: ms, hms, .cons hitem hmatches⟩

end Forest

/-- A container is known by its item. -/
theorem Item.IsGenuine.eq_item {cwd : String} {i : Item} (h : i.IsGenuine cwd)
    (hleaf : i.kind.isLeaf = false) : i = (Container.mk i.kind i.location i.label).item cwd := by
  obtain ⟨hname, hrange⟩ := h.plain hleaf
  have hid := h.identified
  rw [Id.ofKind_of_not_leaf hleaf, Except.ok.injEq] at hid
  cases i
  simp only at hname hrange hid
  rw [Container.item, hname, hrange, ← hid]

/-- The judgement that owners are the nearest manifests, and labels are what the manifests
declare. -/
abbrev Judgement.ofWorkspace (w : Workspace) (c : Conventions) : Judgement :=
  .ofManifests w c fun m label => label = Survey.moduleLabel w c m

theorem Judgement.holds_ofWorkspace (w : Workspace) (c : Conventions) :
    (Judgement.ofWorkspace w c).Holds w c :=
  holds_ofManifests (fun _ _ => rfl) fun _ => rfl

namespace Explorer

variable {w : Workspace} {e : Explorer}

/-- What is in place already is found, and nothing changes. -/
theorem ensure_of_mem {J : Judgement} (h : e.IsOrderly w.cwd J) (place : Place) {k : Container}
    (hleaf : k.kind.isLeaf = false) {n : ItemNo} (hn : n ∈ e.forest.members place)
    (hitem : e.forest.item? n = some (k.item w.cwd)) : e.ensure w place k = .ok (n, e) := by
  apply ensure_of_find?_eq hleaf
  show e.forest.find? place (k.item w.cwd).id = some n
  rw [Forest.find?_eq_some_iff h.forest.consistent, Forest.idOf?, hitem]
  exact ⟨hn, rfl⟩

theorem ensureChain_of_holdsChain {J : Judgement} (h : e.IsOrderly w.cwd J) {n m : ItemNo}
    {ks : List Container} (hleaf : ∀ k ∈ ks, k.kind.isLeaf = false)
    (hchain : e.forest.HoldsChain w.cwd n ks m) : e.ensureChain w n ks = .ok (m, e) := by
  induction ks generalizing n with
  | nil =>
      obtain rfl : n = m := hchain
      rfl
  | cons k ks ih =>
      obtain ⟨l, hl, hitem, hrest⟩ := hchain
      have hensure := ensure_of_mem h (.under n) (hleaf k (by simp)) hl hitem
      rw [ensureChain, hensure]
      exact ih (fun k' hk' => hleaf k' (by simp [hk'])) hrest

/-- The folders around a directory are one. -/
def HasOneFolderAt (e : Explorer) (directory : String) : Prop :=
  ∀ f ∈ e.folders, ∀ g ∈ e.folders, isAtOrBelow directory f = true →
    isAtOrBelow directory g = true → f = g

/-- The root of a directory is the container that is made for it. -/
theorem rootContainer_of_isRoot {c : Conventions} (hfolders : ∀ f ∈ e.folders, IsLocation f)
    {r : Item} (hr : IsLocation r.location) {directory : String} (hdirectory : IsLocation directory)
    (hroot : (Judgement.ofWorkspace w c).IsRoot e.folders r.kind r.location r.label)
    (hreach : c.Reaches r.location directory)
    (hown : w.nearestManifest c directory = ownerOfRoot r) (hone : e.HasOneFolderAt directory) :
    (w.nearestManifest c directory <|> e.folderAround w directory) = some r.location ∧
      rootContainer w c (w.nearestManifest c directory).isSome r.location =
        ⟨r.kind, r.location, r.label⟩ := by
  have hin := (hreach.isAtOrBelow hr).2
  have hne := hr.ne_empty
  rw [hown]
  unfold ownerOfRoot
  generalize r.kind = kind, r.location = location, r.label = label at hroot hin hne ⊢
  cases hroot with
  | module _ _ hlabel =>
      -- the manifest decides, whatever the folders are
      rw [if_pos ⟨rfl, hne⟩, hlabel]
      exact ⟨rfl, rfl⟩
  | workspace _ hmem =>
      -- without a manifest it is the folder around the directory, and there is only one
      rw [if_neg fun hmodule => Kind.noConfusion hmodule.1]
      refine ⟨?_, rfl⟩
      apply folderAround_eq hfolders hdirectory hmem hin
      intro f hf hdf hother
      exact absurd (hone f hf location hmem hdf hin) hother

/-- Above a file in the tree stands a root that owns its directory, and a package unless the
directory is that of the root. -/
theorem exists_root_above {c : Conventions} {folders : List String} {f : Forest}
    (h : f.IsOrderly w.cwd (Belongs c (.ofWorkspace w c) folders)) {n : ItemNo} {i : Item}
    (hn : f.InTree n) (hi : f.item? n = some i) (hfile : i.kind = .file) {directory : String}
    (hdirectory : directoryPart i.location = directory) :
    ∃ r q, r ∈ f.top ∧ f.item? r = some q ∧ q.kind.isRoot = true ∧
      (Judgement.ofWorkspace w c).IsRoot folders q.kind q.location q.label ∧
      c.Reaches q.location directory ∧ w.nearestManifest c directory = ownerOfRoot q ∧
      f.HoldsChain w.cwd r (chainBelow q.location directory i.location) n := by
  obtain ⟨k, p, hk, hchild, hp, hparent, hdp, -, hlabel⟩ := h.file_stands hn hi hfile
  rw [hdirectory] at hdp
  subst hdp
  have hitem : f.item? n = some ((Container.plain .file i.location).item w.cwd) := by
    have heq := (h.genuine n i hi).eq_item (by rw [hfile]; rfl)
    rw [hfile, hlabel] at heq
    rw [hi]
    exact congrArg some heq
  have hploc := (h.genuine k p hp).location
  rcases hparent with hroot | hpackage
  · -- the root itself holds the file
    obtain ⟨htop, hisroot⟩ := h.root_stands hk hp hroot
    have hown := Judgement.nearestManifest_of_isRoot hploc hisroot
    refine ⟨k, p, htop, hp, hroot, hisroot, .refl c p.location, hown, ?_⟩
    rw [chainBelow, if_pos rfl]
    exact ⟨n, hchild, hitem, rfl⟩
  · -- a package does, and the root holds that
    obtain ⟨m, q, hm, hpchild, hq, hroot, hreach, hne, howns, hplabel⟩ :=
      h.package_stands hk hp hpackage
    obtain ⟨htop, hisroot⟩ := h.root_stands hm hq hroot
    have hpitem : f.item? k = some ((Container.plain .package p.location).item w.cwd) := by
      have heq := (h.genuine k p hp).eq_item (by rw [hpackage]; rfl)
      rw [hpackage, hplabel] at heq
      rw [hp]
      exact congrArg some heq
    refine ⟨m, q, htop, hq, hroot, hisroot, hreach, Eq.symm howns, ?_⟩
    rw [chainBelow, if_neg hne]
    exact ⟨k, hpchild, hpitem, n, hchild, hitem, rfl⟩

/-- A file in the tree stands below the containers that its location asks for. -/
theorem IsOrderly.exists_chain {c : Conventions} (h : e.IsOrderly w.cwd (.ofWorkspace w c))
    (hc : e.conventions = c) {n : ItemNo} {i : Item} (hn : e.forest.InTree n)
    (hi : e.forest.item? n = some i) (hfile : i.kind = .file) {directory : String}
    (hdirectory : directoryPart i.location = directory) (hone : e.HasOneFolderAt directory) :
    ∃ root r, (w.nearestManifest c directory <|> e.folderAround w directory) = some root ∧
      isLeftOut c directory root = false ∧ r ∈ e.forest.top ∧
      e.forest.item? r = some
        ((rootContainer w c (w.nearestManifest c directory).isSome root).item w.cwd) ∧
      e.forest.HoldsChain w.cwd r (chainBelow root directory i.location) n := by
  have hforest := h.forest
  rw [hc] at hforest
  obtain ⟨r, q, htop, hq, hkind, hisroot, hreach, hown, hchain⟩ :=
    exists_root_above hforest hn hi hfile hdirectory
  have hgenuine := hforest.genuine r q hq
  have hlocation := (hreach.isAtOrBelow hgenuine.location).1
  obtain ⟨haround, hcontainer⟩ := rootContainer_of_isRoot h.folders hgenuine.location hlocation
    hisroot hreach hown hone
  refine ⟨q.location, r, haround, hreach.not_isLeftOut hgenuine.location, htop, ?_, hchain⟩
  rw [hcontainer, hq]
  exact congrArg some (hgenuine.eq_item (Kind.isLeaf_eq_false_of_isRoot hkind))

/-- Placing a file that is in the tree finds its item, and the tree stays as it is. -/
theorem ensureFile_of_inTree (hw : w.IsInMemory) {c : Conventions}
    (h : e.IsOrderly w.cwd (.ofWorkspace w c)) (hc : e.conventions = c) {n : ItemNo} {i : Item}
    (hn : e.forest.InTree n) (hi : e.forest.item? n = some i) (hfile : i.kind = .file)
    (hone : e.HasOneFolderAt (directoryPart i.location)) :
    ∃ s, e.ensureFile w i.location = .ok (some n, s) ∧ s.IsOrderly w.cwd (.ofWorkspace w c) ∧
      e.Grows s ∧ s.forest = e.forest := by
  have hJ : (Judgement.ofWorkspace w c).Holds w e.conventions := by
    rw [hc]
    exact Judgement.holds_ofWorkspace w c
  have hlocation := (h.forest.genuine n i hi).location
  have hcanonical := canonical_of_isLocation hlocation w.cwd
  have hdlocation := isLocation_directoryPart hlocation
  generalize hdirectory : directoryPart i.location = directory at hone hdlocation
  have hforest := forest_lookedUp e w directory
  obtain ⟨howns, hs, hgrows⟩ := lookedUp_spec hw hJ h hdlocation
  generalize hlook : e.lookedUp w directory = found at howns hs hgrows hforest
  obtain ⟨owner, s⟩ := found
  simp only at howns hs hgrows hforest
  obtain rfl : owner = w.nearestManifest c directory := howns
  have hsc : s.conventions = c := hgrows.conventions.trans hc
  have hsone : s.HasOneFolderAt directory := by
    intro f hf g hg
    rw [hgrows.folders] at hf hg
    exact hone f hf g hg
  rw [← hforest] at hn hi
  obtain ⟨root, r, haround, hleft, htop, hitem, hchain⟩ :=
    hs.exists_chain hsc hn hi hfile hdirectory hsone
  -- placing asks for the very chain that stands above the file
  rw [ensureFile_eq e w i.location hcanonical hdirectory hlook, haround]
  simp only [hsc, hleft, Bool.false_eq_true, if_false]
  generalize w.nearestManifest c directory = owner at hitem
  have hforestt := forest_labelled s w owner.isSome root
  obtain ⟨ht, hgrowst⟩ := labelled_spec (w := w) hs owner.isSome root
  generalize s.labelled w owner.isSome root = t at ht hgrowst hforestt ⊢
  rw [← hforestt] at htop hitem hchain
  have hroot : (rootContainer w c owner.isSome root).kind.isLeaf = false := by
    unfold rootContainer
    split <;> rfl
  have hensure := ensure_of_mem ht .top hroot htop hitem
  have hensures := ensureChain_of_holdsChain ht (fun k hk => isLeaf_of_mem_chainBelow hk) hchain
  refine ⟨t, ?_, ht, hgrows.trans hgrowst, hforestt.trans hforest⟩
  rw [hensure]
  simp only [bind, Except.bind, hensures]
  rfl

end Explorer

end TestAtlas
