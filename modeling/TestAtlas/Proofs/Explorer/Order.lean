import TestAtlas.Explorer.Expansion
import TestAtlas.Proofs.Tree.Fill
import TestAtlas.Proofs.Tree.Reach
import TestAtlas.Proofs.Tree.Reconciliation
import TestAtlas.Proofs.Workspace.Discovery

/-!
# Explorers in order

`Belongs` says which items stand below which: roots at the top, packages below the root that they
are reached from, files in their directory, leaves below their file.  What is right of owners and of
the labels of modules is left to a judgement.  An explorer is in order when every item of its forest
stands where it belongs and its survey agrees with the judgement.  `ensure_spec` and
`ensureAll_spec` say that containers which belong at a place can be put there, and that the explorer
stays in order then.
-/

namespace TestAtlas

open TestAtlas.Path

/-- How far down an item of a kind stands. -/
def Kind.level : Kind → Nat
  | module | workspace => 0
  | package => 1
  | file => 2
  | test | benchmark | .example => 3

/-- How far down an item stands. -/
def Item.level (i : Item) : Nat := i.kind.level

/-- The item belongs below its owner, or at the top. -/
inductive Belongs (c : Conventions) (J : Judgement) (folders : List String) :
    Option Item → Item → Prop
  | root {i : Item} : J.IsRoot folders i.kind i.location i.label → Belongs c J folders none i
  | package {r i : Item} : r.kind.isRoot = true → i.kind = .package →
      c.Reaches r.location i.location → i.location ≠ r.location →
      J.owns i.location (Explorer.ownerOfRoot r) → c.HasTestName →
      i.label = lastPart i.location → Belongs c J folders (some r) i
  | file {p i : Item} {name : String} : p.kind.isRoot = true ∨ p.kind = .package →
      i.kind = .file → IsSegment name → c.isTestFile name = true →
      i.location = below p.location name → i.label = name → Belongs c J folders (some p) i
  | leaf {p i : Item} : p.kind = .file → i.kind.isLeaf = true → i.location = p.location →
      Belongs c J folders (some p) i

namespace Belongs

variable {c : Conventions} {J : Judgement} {folders : List String}

theorem level_lt (p i : Item) (h : Belongs c J folders (some p) i) : p.level < i.level := by
  unfold Item.level
  cases h with
  | package hr hk =>
      rw [hk]
      cases hp : p.kind <;> rw [hp] at hr <;> first | decide | exact absurd hr (by decide)
  | file hp hk =>
      rw [hk]
      cases hkind : p.kind <;> rw [hkind] at hp <;> first | decide | exact absurd hp (by decide)
  | leaf hp hk =>
      rw [hp]
      cases hi : i.kind <;> rw [hi] at hk <;> first | decide | exact absurd hk (by decide)

/-- Only leaves belong below a file. -/
theorem owner_ne_file {owner : Option Item} {i : Item} (h : Belongs c J folders owner i)
    (hleaf : i.kind.isLeaf = false) : ∀ p, owner = some p → p.kind ≠ .file := by
  rintro p rfl
  cases h with
  | package hr =>
      intro hfile
      rw [hfile] at hr
      exact absurd hr (by decide)
  | file hp =>
      intro hfile
      rw [hfile] at hp
      exact absurd hp (by decide)
  | leaf _ hkind => exact absurd (hleaf.symm.trans hkind) (by simp)

theorem isRoot {i : Item} (h : Belongs c J folders none i) :
    J.IsRoot folders i.kind i.location i.label := by
  cases h with
  | root hroot => exact hroot

/-- Only the kind and the location of the owner count. -/
theorem congr_owner {p p' i : Item} (hk : p'.kind = p.kind) (hl : p'.location = p.location)
    (h : Belongs c J folders (some p) i) : Belongs c J folders (some p') i := by
  cases h with
  | package hr hkind hreach hne hown htest hlabel =>
      refine .package (hk ▸ hr) hkind (hl ▸ hreach) (hl ▸ hne) ?_ htest hlabel
      unfold Explorer.ownerOfRoot at hown ⊢
      rw [hk, hl]
      exact hown
  | file hp hkind hseg htest hloc hlabel =>
      exact .file (hk ▸ hp) hkind hseg htest (hl ▸ hloc) hlabel
  | leaf hp hkind hloc => exact .leaf (hk ▸ hp) hkind (hl ▸ hloc)

/-- The folders count for workspace items only, and those stand at the top. -/
theorem congr_folders {folders' : List String} {owner : Option Item} {i : Item}
    (hfolders : owner = none → i.kind = .workspace → i.location ∈ folders')
    (h : Belongs c J folders owner i) : Belongs c J folders' owner i := by
  cases h with
  | root hroot =>
      have hmem := hfolders rfl
      clear hfolders
      refine .root ?_
      generalize i.kind = kind, i.location = location, i.label = label at hroot hmem ⊢
      cases hroot with
      | module hd hown hname => exact .module hd hown hname
      | workspace hd _ hin hown => exact .workspace hd (hmem rfl) hin hown
  | package hr hkind hreach hne hown htest hlabel =>
      exact .package hr hkind hreach hne hown htest hlabel
  | file hp hkind hseg htest hloc hlabel => exact .file hp hkind hseg htest hloc hlabel
  | leaf hp hkind hloc => exact .leaf hp hkind hloc

end Belongs

/-! ## Where items of a kind stand -/

namespace Forest

variable {cwd : String} {c : Conventions} {J : Judgement} {folders : List String} {f : Forest}
  {n : ItemNo} {i : Item}

theorem IsOrderly.root_stands (h : f.IsOrderly cwd (Belongs c J folders)) (hn : f.InTree n)
    (hi : f.item? n = some i) (hk : i.kind.isRoot = true) :
    n ∈ f.top ∧ J.IsRoot folders i.kind i.location i.label := by
  rcases h.stands hn hi with ⟨hmem, hfits⟩ | ⟨m, p, -, -, -, hfits⟩
  · exact ⟨hmem, hfits.isRoot⟩
  · cases hfits with
    | package _ hkind => rw [hkind] at hk; exact absurd hk (by decide)
    | file _ hkind => rw [hkind] at hk; exact absurd hk (by decide)
    | leaf _ hkind => rw [Kind.isLeaf_eq_false_of_isRoot hk] at hkind; exact absurd hkind (by simp)

theorem IsOrderly.package_stands (h : f.IsOrderly cwd (Belongs c J folders)) (hn : f.InTree n)
    (hi : f.item? n = some i) (hk : i.kind = .package) :
    ∃ m r, f.InTree m ∧ n ∈ f.children m ∧ f.item? m = some r ∧ r.kind.isRoot = true ∧
      c.Reaches r.location i.location ∧ i.location ≠ r.location ∧
      J.owns i.location (Explorer.ownerOfRoot r) ∧ i.label = lastPart i.location := by
  rcases h.stands hn hi with ⟨hmem, hfits⟩ | ⟨m, p, hm, hmem, hp, hfits⟩
  · have hroot := hfits.isRoot.isRoot
    rw [hk] at hroot
    exact absurd hroot (by decide)
  · cases hfits with
    | package hr _ hreach hne howns _ hlabel =>
        exact ⟨m, p, hm, hmem, hp, hr, hreach, hne, howns, hlabel⟩
    | file _ hkind => rw [hk] at hkind; exact absurd hkind (by decide)
    | leaf _ hkind => rw [hk] at hkind; exact absurd hkind (by decide)

theorem IsOrderly.file_stands (h : f.IsOrderly cwd (Belongs c J folders)) (hn : f.InTree n)
    (hi : f.item? n = some i) (hk : i.kind = .file) :
    ∃ m p, f.InTree m ∧ n ∈ f.children m ∧ f.item? m = some p ∧
      (p.kind.isRoot = true ∨ p.kind = .package) ∧ directoryPart i.location = p.location ∧
      c.isTestFile (lastPart i.location) = true ∧ i.label = lastPart i.location := by
  rcases h.stands hn hi with ⟨hmem, hfits⟩ | ⟨m, p, hm, hmem, hp, hfits⟩
  · have hroot := hfits.isRoot.isRoot
    rw [hk] at hroot
    exact absurd hroot (by decide)
  · cases hfits with
    | package _ hkind => rw [hk] at hkind; exact absurd hkind (by decide)
    | file hp' _ hname htest hloc hlabel =>
        have hploc := (h.genuine m p hp).location
        refine ⟨m, p, hm, hmem, hp, hp', ?_, ?_, ?_⟩
        · rw [hloc, directoryPart_below hploc hname]
        · rw [hloc, lastPart_below hploc hname]
          exact htest
        · rw [hloc, lastPart_below hploc hname]
          exact hlabel
    | leaf _ hkind => rw [hk] at hkind; exact absurd hkind (by decide)

theorem IsOrderly.leaf_stands (h : f.IsOrderly cwd (Belongs c J folders)) (hn : f.InTree n)
    (hi : f.item? n = some i) (hk : i.kind.isLeaf = true) :
    ∃ m p, f.InTree m ∧ n ∈ f.children m ∧ f.item? m = some p ∧ p.kind = .file ∧
      i.location = p.location := by
  rcases h.stands hn hi with ⟨hmem, hfits⟩ | ⟨m, p, hm, hmem, hp, hfits⟩
  · have hroot := Kind.isLeaf_eq_false_of_isRoot hfits.isRoot.isRoot
    rw [hk] at hroot
    exact absurd hroot (by simp)
  · cases hfits with
    | package _ hkind => rw [hkind] at hk; exact absurd hk (by decide)
    | file _ hkind => rw [hkind] at hk; exact absurd hk (by decide)
    | leaf hp' _ hloc => exact ⟨m, p, hm, hmem, hp, hp', hloc⟩

/-- Nothing stands below a leaf. -/
theorem children_of_isLeaf (h : f.IsOrderly cwd (Belongs c J folders)) {n : ItemNo} {i : Item}
    (hi : f.item? n = some i) (hleaf : i.kind.isLeaf = true) : f.children n = [] := by
  by_contra hne
  obtain ⟨m, hm⟩ := List.exists_mem_of_ne_nil _ hne
  obtain ⟨j, -, hfits⟩ := h.of_mem_children hm hi
  have hnot : i.kind.isRoot = false ∧ i.kind ≠ .package ∧ i.kind ≠ .file := by
    cases hk : i.kind <;> rw [hk] at hleaf <;> first | decide | exact absurd hleaf (by decide)
  cases hfits with
  | package hr => exact absurd hr (by rw [hnot.1]; simp)
  | file hp =>
      rcases hp with hp | hp
      · exact absurd hp (by rw [hnot.1]; simp)
      · exact hnot.2.1 hp
  | leaf hp => exact hnot.2.2 hp

/-- Below a file stand leaves only. -/
theorem isLeaf_of_mem_children (h : f.IsOrderly cwd (Belongs c J folders)) {m n : ItemNo}
    {i : Item} (hi : f.item? m = some i) (hfile : i.kind = .file) (hn : n ∈ f.children m) :
    ∃ j, f.item? n = some j ∧ j.kind.isLeaf = true := by
  obtain ⟨j, hj, hfits⟩ := h.of_mem_children hn hi
  refine ⟨j, hj, ?_⟩
  cases hfits with
  | package hr => rw [hfile] at hr; exact absurd hr (by decide)
  | file hp => rw [hfile] at hp; exact absurd hp (by decide)
  | leaf _ hkind => exact hkind

/-- Below a package stand the files of its directory. -/
theorem isFile_of_mem_children (h : f.IsOrderly cwd (Belongs c J folders)) {m n : ItemNo}
    {p : Item} (hp : f.item? m = some p) (hpackage : p.kind = .package) (hn : n ∈ f.children m) :
    ∃ i, f.item? n = some i ∧ i.kind = .file ∧ directoryPart i.location = p.location := by
  obtain ⟨i, hi, hfits⟩ := h.of_mem_children hn hp
  refine ⟨i, hi, ?_⟩
  cases hfits with
  | package hroot => rw [hpackage] at hroot; exact absurd hroot (by decide)
  | file _ hkind hname _ hlocation =>
      refine ⟨hkind, ?_⟩
      rw [hlocation, directoryPart_below (h.genuine m p hp).location hname]
  | leaf hfile => rw [hpackage] at hfile; exact absurd hfile (by decide)

end Forest

/-! ## Where no leaf comes or goes -/

namespace Forest

/-- An item that has other children than before is no file. -/
def KeepsLeaves (f g : Forest) : Prop :=
  ∀ n, g.children n ≠ f.children n → ∃ i, g.item? n = some i ∧ i.kind ≠ .file

theorem KeepsLeaves.refl (f : Forest) : f.KeepsLeaves f := fun _ hne => absurd rfl hne

theorem KeepsLeaves.trans {f g h : Forest} (hfg : f.KeepsLeaves g) (hgh : g.KeepsLeaves h)
    (hkeeps : g.Keeps h) : f.KeepsLeaves h := by
  intro n hne
  by_cases heq : h.children n = g.children n
  · obtain ⟨i, hi, hnot⟩ := hfg n (heq ▸ hne)
    exact ⟨i, hkeeps n i hi, hnot⟩
  · exact hgh n heq

/-- The children of a file are the same as before; a file that is new has none. -/
theorem KeepsLeaves.children_eq {f g : Forest} (h : f.KeepsLeaves g) {n : ItemNo} {i : Item}
    (hi : g.item? n = some i) (hfile : i.kind = .file) : g.children n = f.children n := by
  by_contra hne
  obtain ⟨j, hj, hnot⟩ := h n hne
  rw [hi, Option.some.injEq] at hj
  exact hnot (hj ▸ hfile)

/-- A change at one place, whose owner is no file, keeps the leaves. -/
theorem keepsLeaves_of_frame {f g : Forest} {place : Place} {owner : Option Item}
    (hframe : ∀ p, p ≠ place → g.members p = f.members p) (howner : g.ownerAt place = some owner)
    (hnot : ∀ i, owner = some i → i.kind ≠ .file) : f.KeepsLeaves g := by
  intro n hne
  have hplace : Place.under n = place := by
    by_contra hother
    exact hne (hframe _ hother)
  subst hplace
  obtain ⟨i, hi, hsome⟩ := Option.map_eq_some_iff.mp howner
  exact ⟨i, hi, hnot i hsome.symm⟩

end Forest

/-! ## Explorers -/

/-- The item that is made for a container. -/
def Container.item (cwd : String) (k : Container) : Item :=
  ⟨Id.container cwd k.location k.kind, k.label, k.location, k.kind, none, none⟩

theorem Container.ofKind_item {k : Container} (hk : k.kind.isLeaf = false) (cwd : String) :
    Id.ofKind cwd k.location k.kind none = .ok (k.item cwd).id :=
  Id.ofKind_of_not_leaf hk cwd k.location none

theorem Container.isGenuine_item {k : Container} (hk : k.kind.isLeaf = false)
    (hl : IsLocation k.location) (cwd : String) : (k.item cwd).IsGenuine cwd where
  location := hl
  identified := Container.ofKind_item hk cwd
  plain := fun _ => ⟨rfl, rfl⟩

/-- A genuine item with the identifier of a container has its kind and its location. -/
theorem Item.IsGenuine.eq_of_id_container {cwd : String} {i : Item} (h : i.IsGenuine cwd)
    {k : Container} (hk : k.kind.isLeaf = false) (hl : IsLocation k.location)
    (hid : i.id = (k.item cwd).id) : i.kind = k.kind ∧ i.location = k.location := by
  obtain ⟨hloc, hkind, -⟩ := h.eq_of_id (Container.isGenuine_item hk hl cwd) hid
  exact ⟨hkind, hloc⟩

namespace Explorer

/-- Every item stands where it belongs, and the survey agrees with the judgement. -/
structure IsOrderly (cwd : String) (J : Judgement) (e : Explorer) : Prop where
  forest : e.forest.IsOrderly cwd (Belongs e.conventions J e.folders)
  survey : Survey.Agrees J.owns e.survey.owners
  folders : ∀ f ∈ e.folders, IsLocation f

/-- The tree only grew, by items that are no leaves, and the conventions, the folders and the texts
are the same. -/
structure Grows (e e' : Explorer) : Prop where
  conventions : e'.conventions = e.conventions
  folders : e'.folders = e.folders
  documents : e'.documents = e.documents
  forest : e.forest.Grows e'.forest
  leaves : e.forest.KeepsLeaves e'.forest

theorem Grows.of_forest_eq {e e' : Explorer} (hconventions : e'.conventions = e.conventions)
    (hfolders : e'.folders = e.folders) (hdocuments : e'.documents = e.documents)
    (hforest : e'.forest = e.forest) : e.Grows e' :=
  ⟨hconventions, hfolders, hdocuments, hforest ▸ Forest.Grows.refl _,
    hforest ▸ Forest.KeepsLeaves.refl _⟩

theorem Grows.refl (e : Explorer) : e.Grows e := .of_forest_eq rfl rfl rfl rfl

theorem Grows.trans {e e' e'' : Explorer} (h : e.Grows e') (h' : e'.Grows e'') : e.Grows e'' :=
  ⟨h'.conventions.trans h.conventions, h'.folders.trans h.folders,
    h'.documents.trans h.documents, h.forest.trans h'.forest,
    h.leaves.trans h'.leaves h'.forest.keeps⟩

variable {w : Workspace} {J : Judgement} {e : Explorer}

theorem isOrderly_start (J : Judgement) (hrooted : isRooted w.cwd.toList = true) (c : Conventions)
    (folders : List String) : (start w c folders).IsOrderly w.cwd J where
  forest := Forest.isArranged_empty _ _
  survey := Survey.agrees_empty _
  folders := by
    intro f hf
    obtain ⟨folder, -, rfl⟩ := List.mem_map.mp (List.mem_eraseDups.mp hf)
    exact isLocation_canonical hrooted folder

theorem IsOrderly.isAttached_iff {cwd : String} (h : e.IsOrderly cwd J) (n : ItemNo) :
    e.forest.isAttached n = true ↔ e.forest.InTree n :=
  Forest.isAttached_iff h.forest Belongs.level_lt n

theorem IsOrderly.mem_walk_top_iff {cwd : String} (h : e.IsOrderly cwd J) (n : ItemNo) :
    n ∈ e.forest.walk .top ↔ e.forest.InTree n :=
  Forest.mem_walk_top_iff h.forest Belongs.level_lt n

/-- Another survey that agrees changes nothing else. -/
theorem IsOrderly.with_survey {cwd : String} (h : e.IsOrderly cwd J) {s : Survey}
    (hs : Survey.Agrees J.owns s.owners) (surveyed : Bool) :
    { e with survey := s, isSurveyed := surveyed }.IsOrderly cwd J :=
  ⟨h.forest, hs, h.folders⟩

theorem IsOrderly.report {cwd : String} (h : e.IsOrderly cwd J) (events : List Event) :
    (e.report events).IsOrderly cwd J :=
  ⟨h.forest, h.survey, h.folders⟩

theorem IsOrderly.surveyed (h : e.IsOrderly w.cwd J) (hw : w.IsInMemory)
    (hJ : J.Holds w e.conventions) : (e.surveyed w).IsOrderly w.cwd J := by
  unfold Explorer.surveyed
  split
  · exact h
  · exact h.with_survey (Survey.build_agrees hw hJ.inherited _ _) true

theorem grows_surveyed (e : Explorer) (w : Workspace) : e.Grows (e.surveyed w) := by
  unfold surveyed
  split <;> exact .of_forest_eq rfl rfl rfl rfl

/-! ## Putting containers in -/

/-- The explorer after the item of a container was made at a place. -/
def planted (e : Explorer) (cwd : String) (place : Place) (k : Container) : Explorer :=
  { e with forest := e.forest.put place (k.item cwd) }.report [.added (k.item cwd).id]

/-- A container that is missing at a place is made there. -/
theorem ensure_of_find?_eq_none (h : e.forest.IsConsistent) {place : Place} {k : Container}
    (hk : k.kind.isLeaf = false) (hfree : e.forest.find? place (k.item w.cwd).id = none) :
    e.ensure w place k = .ok (e.forest.nodes.size, e.planted w.cwd place k) := by
  have hid := Container.ofKind_item hk w.cwd
  have hcreate := Forest.create_of_ofKind (i := k.item w.cwd) hid (fun _ => rfl) e.forest
  have hadd := Forest.add_push h hfree
  change e.forest.create (k.item w.cwd).id k.label k.location =
    .ok (e.forest.push (k.item w.cwd)) at hcreate
  have hsplit : e.forest.push (k.item w.cwd) =
    (e.forest.nodes.size, (e.forest.push (k.item w.cwd)).2) := rfl
  unfold ensure
  simp only [hid, hfree, hcreate, bind, Except.bind]
  rw [hsplit]
  simp only [hadd]
  rfl

theorem IsOrderly.planted (h : e.IsOrderly w.cwd J) {place : Place} {owner : Option Item}
    (howner : e.forest.ownerAt place = some owner) {k : Container} (hk : k.kind.isLeaf = false)
    (hl : IsLocation k.location) (hfits : Belongs e.conventions J e.folders owner (k.item w.cwd))
    (hfree : e.forest.find? place (k.item w.cwd).id = none) :
    (e.planted w.cwd place k).IsOrderly w.cwd J where
  forest := h.forest.put howner (Container.isGenuine_item hk hl w.cwd) hfits hfree
  survey := h.survey
  folders := h.folders

/-- The item of a container is at a place, and no other item is new. -/
structure HasPut (e e' : Explorer) (place : Place) (k : Container) (n : ItemNo) : Prop where
  mem : n ∈ e'.forest.members place
  item : ∃ i, e'.forest.item? n = some i ∧ i.kind = k.kind ∧ i.location = k.location
  only : ∀ m, e.forest.nodes.size ≤ m → m < e'.forest.nodes.size → m = n

/-- The item of a container is found at its place, or it is made and put there. -/
theorem ensure_cases (h : e.forest.IsConsistent) {place : Place}
    (hplace : e.forest.HasPlace place) {k : Container} (hk : k.kind.isLeaf = false) :
    (∃ n i, e.ensure w place k = .ok (n, e) ∧ n ∈ e.forest.members place ∧
      e.forest.item? n = some i ∧ i.id = (k.item w.cwd).id) ∨
    (e.forest.find? place (k.item w.cwd).id = none ∧
      e.ensure w place k = .ok (e.forest.nodes.size, e.planted w.cwd place k) ∧
      e.forest.nodes.size ∈ (e.planted w.cwd place k).forest.members place ∧
      (e.planted w.cwd place k).forest.item? e.forest.nodes.size = some (k.item w.cwd)) := by
  cases hfind : e.forest.find? place (k.item w.cwd).id with
  | some n =>
      obtain ⟨hn, hid⟩ := Forest.of_find?_eq_some hfind
      obtain ⟨i, hi, hiid⟩ := Option.map_eq_some_iff.mp hid
      exact Or.inl ⟨n, i, ensure_of_find?_eq hk hfind, hn, hi, hiid⟩
  | none =>
      refine Or.inr ⟨rfl, ensure_of_find?_eq_none h hk hfind, ?_, Forest.item?_put_self _⟩
      show _ ∈ (e.forest.put place (k.item w.cwd)).members place
      rw [Forest.members_put _ hplace, if_pos rfl]
      simp

/-- A container that belongs at a place can be put there, or is there already. -/
theorem ensure_spec (h : e.IsOrderly w.cwd J) (place : Place) {owner : Option Item}
    (howner : e.forest.ownerAt place = some owner) {k : Container} (hk : k.kind.isLeaf = false)
    (hl : IsLocation k.location)
    (hfits : Belongs e.conventions J e.folders owner (k.item w.cwd)) :
    ∃ n e', e.ensure w place k = .ok (n, e') ∧ e'.IsOrderly w.cwd J ∧ e.Grows e' ∧
      e.HasPut e' place k n := by
  have hplace := Forest.hasPlace_of_ownerAt howner
  rcases ensure_cases h.forest.consistent hplace hk with
    ⟨n, i, hensure, hn, hi, hid⟩ | ⟨hfind, hensure, hn, hi⟩
  · have hsame := (h.forest.genuine n i hi).eq_of_id_container hk hl hid
    refine ⟨n, e, hensure, h, Grows.refl e, hn, ⟨i, hi, hsame⟩, ?_⟩
    intro m hle hlt
    omega
  · have hleaves : e.forest.KeepsLeaves (e.forest.put place (k.item w.cwd)) :=
      Forest.keepsLeaves_of_frame
        (fun p hp => (Forest.members_put _ hplace p).trans (if_neg hp))
        (Forest.ownerAt_put howner) (hfits.owner_ne_file hk)
    refine ⟨_, _, hensure, h.planted howner hk hl hfits hfind,
      ⟨rfl, rfl, rfl, Forest.grows_put hplace _, hleaves⟩, hn, ⟨_, hi, rfl, rfl⟩, ?_⟩
    intro m hle hlt
    change m < (e.forest.put place (k.item w.cwd)).nodes.size at hlt
    rw [Forest.size_put] at hlt
    exact Nat.le_antisymm (Nat.le_of_lt_succ hlt) hle

/-- Containers that belong at a place can be put there. -/
theorem ensureAll_spec (h : e.IsOrderly w.cwd J) (place : Place) {owner : Option Item}
    (howner : e.forest.ownerAt place = some owner) (ks : List Container)
    (hks : ∀ k ∈ ks, k.kind.isLeaf = false ∧ IsLocation k.location ∧
      Belongs e.conventions J e.folders owner (k.item w.cwd)) :
    ∃ e', e.ensureAll w place ks = .ok e' ∧ e'.IsOrderly w.cwd J ∧ e.Grows e' := by
  induction ks generalizing e with
  | nil => exact ⟨e, rfl, h, Grows.refl e⟩
  | cons k ks ih =>
      obtain ⟨hk, hl, hfits⟩ := hks k (by simp)
      obtain ⟨n, e', hensure, he', hgrows, -⟩ := ensure_spec h place howner hk hl hfits
      have hrest : ∀ k' ∈ ks, k'.kind.isLeaf = false ∧ IsLocation k'.location ∧
          Belongs e'.conventions J e'.folders owner (k'.item w.cwd) := by
        intro k' hk'
        rw [hgrows.conventions, hgrows.folders]
        exact hks k' (by simp [hk'])
      obtain ⟨e'', hall, he'', hgrows'⟩ := ih he' (hgrows.forest.keeps.ownerAt howner) hrest
      refine ⟨e'', ?_, he'', hgrows.trans hgrows'⟩
      rw [ensureAll, hensure]
      exact hall

end Explorer

end TestAtlas
