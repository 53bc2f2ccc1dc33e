import TestAtlas.Proofs.Explorer.Home
import TestAtlas.Proofs.Explorer.Shape

/-!
# When identifiers are unique

Below one top item the identifiers are unique, whatever happens.  Two top items hold items with one
identifier exactly when a folder lies inside another one: a directory without an owner is shown
below the outer folder when that is filled in, and below the inner one when a file of it is opened.
The main statement is `Session.uniqueIds_iff`.
-/

namespace TestAtlas

open TestAtlas.Path

/-- No two items of the tree have one identifier. -/
def Forest.HasUniqueIds (f : Forest) : Prop :=
  ∀ m n, f.InTree m → f.InTree n → f.idOf? m = f.idOf? n → m = n

namespace Workspace

/-- One of the folders lies inside another one, is reached from it through names that are not left
out, and belongs to no module. -/
def Overlaps (w : Workspace) (c : Conventions) (folders : List String) : Prop :=
  ∃ inner ∈ folders, ∃ outer ∈ folders, inner ≠ outer ∧ c.Reaches outer inner ∧
    w.nearestManifest c inner = none

variable {w : Workspace} {c : Conventions} {folders : List String}

/-- A directory is shared only if the folders overlap. -/
theorem IsShared.overlaps (hfolders : ∀ f ∈ folders, IsLocation f) {d : String}
    (h : w.IsShared c folders d) : w.Overlaps c folders := by
  obtain ⟨hnone, f, hf, g, hg, hne, hfd, hgd⟩ := h
  have hfloc := hfolders f hf
  have hgloc := hfolders g hg
  obtain ⟨hd, hdf⟩ := hfd.isAtOrBelow hfloc
  have hdg := (hgd.isAtOrBelow hgloc).2
  rcases isAtOrBelow_total hfloc hgloc hd hdf hdg with hfg | hgf
  · exact ⟨f, hf, g, hg, hne, (hgd.between hgloc hfloc hfg hdf).1,
      nearestManifest_eq_none_of_isAtOrBelow hd hfloc hdf hnone⟩
  · exact ⟨g, hg, f, hf, hne.symm, (hfd.between hfloc hgloc hgf hdg).1,
      nearestManifest_eq_none_of_isAtOrBelow hd hgloc hdg hnone⟩

/-- The workspace is held in memory, seen from the same directory, and every directory has the same
owner. -/
structure HasSameManifests (w : Workspace) (c : Conventions) (w' : Workspace) : Prop where
  memory : w'.IsInMemory
  cwd : w'.cwd = w.cwd
  owner : ∀ d, IsLocation d → w'.nearestManifest c d = w.nearestManifest c d

end Workspace

/-- The judgement that owners are the nearest manifests, and any label will do. -/
abbrev Judgement.ofOwners (w : Workspace) (c : Conventions) : Judgement :=
  .ofManifests w c fun _ _ => True

theorem Workspace.HasSameManifests.holds {w w' : Workspace} {c : Conventions}
    (h : w.HasSameManifests c w') : (Judgement.ofOwners w c).Holds w' c :=
  Judgement.holds_ofManifests h.owner fun _ => trivial

/-! ## Opening a test file -/

/-- A file was placed below a root with a given location, and what is no leaf stays where it
was. -/
structure Explorer.HasOpened (e e' : Explorer) (root file : String) : Prop where
  folders : e'.folders = e.folders
  keeps : e.forest.Keeps e'.forest
  stays : ∀ r n i, e.forest.IsBelow r n → e.forest.item? n = some i → i.kind.isLeaf = false →
    e'.forest.IsBelow r n
  placed : ∃ r n i j, e'.forest.IsBelow r n ∧ e'.forest.item? r = some i ∧ i.location = root ∧
    e'.forest.item? n = some j ∧ j.kind = .file ∧ j.location = file

/-- A file that was placed below two roots has two items with one identifier. -/
theorem Explorer.HasOpened.not_hasUniqueIds {cwd : String} {J : Judgement}
    {e₀ e₁ e₂ e₃ : Explorer} (h : e₃.IsOrderly cwd J) {outer inner file : String}
    (hopened : e₀.HasOpened e₁ outer file) (hgrows : e₁.forest.Grows e₂.forest)
    (hopened' : e₂.HasOpened e₃ inner file) (hne : inner ≠ outer) :
    ¬ e₃.forest.HasUniqueIds := by
  obtain ⟨r, n, i, j, hbelow, hi, hil, hj, hjk, hjl⟩ := hopened.placed
  obtain ⟨r', n', i', j', hbelow', hi', hil', hj', hjk', hjl'⟩ := hopened'.placed
  have hforest := h.forest
  have hleaf : j.kind.isLeaf = false := by
    rw [hjk]
    rfl
  -- the item below the outer root is still there, and the second one has its identifier
  have hj₂ := hgrows.keeps n j hj
  have hj₃ := hopened'.keeps n j hj₂
  have hstays := hopened'.stays r n j (hbelow.grows hgrows) hj₂ hleaf
  have hname : j.name = j'.name := by
    rw [hforest.name_eq_none hj₃ hleaf, hforest.name_eq_none hj' (by rw [hjk']; rfl)]
  have hid := hforest.idOf?_congr hj₃ hj' (hjk.trans hjk'.symm) (hjl.trans hjl'.symm) hname
  intro hunique
  -- one item would stand below one root, but the roots lie in different folders
  have hnn' := hunique n n' hstays.inTree hbelow'.inTree hid
  rw [← hnn'] at hbelow'
  have hrr' := hstays.top_unique hforest.consistent hbelow'
  have hi₃ := hopened'.keeps r i (hgrows.keeps r i hi)
  rw [hrr', hi', Option.some.injEq] at hi₃
  rw [← hi₃, hil'] at hil
  exact hne hil

/-- A test file in a directory without an owner is placed below the folder around it. -/
theorem Explorer.exists_hasOpened {w : Workspace} {J : Judgement} {e : Explorer}
    (hw : w.IsInMemory) (hJ : J.Holds w e.conventions) (h : e.IsOrderly w.cwd J)
    (p : SymbolProvider) {d : Document} {directory name root : String}
    (hdirectory : IsLocation directory) (hname : IsSegment name)
    (hpath : canonical w.cwd d.path = below directory name)
    (htest : e.conventions.isTestFile name = true) (hnone : ∀ o, J.owns directory o → o = none)
    (haround : e.folderAround w directory = some root)
    (hreach : e.conventions.Reaches root directory) :
    ∃ answer e', e.finish w p (.update d) = .ok (answer, e') ∧
      e.HasOpened e' root (below directory name) := by
  have htest' : e.conventions.isTestFile (base w.cwd d.path) = true := by
    rw [base, hpath, lastPart_below hdirectory hname]
    exact htest
  obtain ⟨rec, e', hfinish, -, t, owner, result, hupdated⟩ :=
    finish_update_spec hw hJ h p htest'
  refine ⟨_, e', hfinish, ?_⟩
  rw [hpath] at hupdated
  have hplacement := hupdated.placement
  rw [directoryPart_below hdirectory hname] at hplacement
  have howner := hnone owner hplacement.owns
  subst howner
  have hroot : (none <|> (e.report (symbolEvents p d)).folderAround w directory) = some root :=
    haround
  cases result with
  | none =>
      -- the directory is reached from the folder, so it is not left out
      have hleft := hplacement.ignored rfl root hroot
      have hmem := (of_folderAround_eq_some h.folders hdirectory haround).1
      have hkept := hreach.not_isLeftOut (h.folders root hmem)
      exact absurd (hleft.symm.trans hkept) (by simp)
  | some n =>
      obtain ⟨root', hroot', hplaced⟩ := hplacement.placed n rfl
      rw [hroot, Option.some.injEq] at hroot'
      subst hroot'
      obtain ⟨j, hj, hfile, hlocation⟩ := hplaced.item
      obtain ⟨ms, hlineage, hitems, -⟩ := hplaced
      obtain ⟨r, rest, ⟨i, hi, -, hil⟩, -, rfl⟩ := List.forall₂_cons_right_iff.mp hitems
      have hbelow := Forest.isBelow_iff_lineage.mpr ⟨rest, hlineage⟩
      obtain ⟨rec', -, hdone⟩ := hupdated.reconciled n rfl
      have hnonleaf : j.kind.isLeaf = false := by
        rw [hfile]
        rfl
      have hforest := hupdated.orderly.forest
      constructor
      · exact hupdated.folders
      · exact hupdated.grows.forest.keeps.trans hdone.keeps
      · intro s m k hbelow' hk hleaf
        have hgrown := hbelow'.grows hupdated.grows.forest
        have hk' := hupdated.grows.forest.keeps m k hk
        exact hgrown.of_isReconciled hforest hj hfile hdone hk' hleaf
      · refine ⟨r, n, i, j, ?_, hdone.keeps r i hi, hil, hdone.keeps n j hj, hfile, hlocation⟩
        exact hbelow.of_isReconciled hforest hj hfile hdone hj hnonleaf

/-! ## Where the folders do not overlap -/

namespace Session

variable {admits : Workspace → Prop} {w : Workspace} {c : Conventions} {s : Session}

theorem Arises.isOrderly_ofOwners (hadmits : ∀ w', admits w' → w.HasSameManifests c w')
    (h : Arises admits c s) :
    s.explorer.IsOrderly w.cwd (.ofOwners w c) ∧ s.explorer.conventions = c := by
  have hholds : ∀ w', admits w' →
      w'.IsInMemory ∧ w'.cwd = w.cwd ∧ (Judgement.ofOwners w c).Holds w' c :=
    fun w' hw' => ⟨(hadmits w' hw').memory, (hadmits w' hw').cwd, (hadmits w' hw').holds⟩
  obtain ⟨hs, hc⟩ := h.isOrderly hholds
  exact ⟨hs.explorer, hc⟩

theorem Arises.holds_ofOwners (hadmits : ∀ w', admits w' → w.HasSameManifests c w')
    (hw : admits w) (h : Arises admits c s) :
    (Judgement.ofOwners w c).Holds w s.explorer.conventions := by
  rw [(h.isOrderly_ofOwners hadmits).2]
  exact (hadmits w hw).holds

theorem Arises.hasUniqueIds (hadmits : ∀ w', admits w' → w.HasSameManifests c w')
    (h : Arises admits c s) (hfolders : ¬ w.Overlaps c s.explorer.folders) :
    s.explorer.forest.HasUniqueIds := by
  obtain ⟨hs, hc⟩ := h.isOrderly_ofOwners hadmits
  have hforest := hs.forest
  rw [hc] at hforest
  intro m n hm hn hid
  exact hforest.eq_of_idOf? (fun d hd => hfolders (hd.overlaps hs.folders)) hm hn hid

/-- Without test files there are top items only. -/
theorem Arises.hasUniqueIds_of_not_hasTestName
    (hadmits : ∀ w', admits w' → w.HasSameManifests c w') (h : Arises admits c s)
    (htest : ¬ c.HasTestName) : s.explorer.forest.HasUniqueIds := by
  obtain ⟨hs, hc⟩ := h.isOrderly_ofOwners hadmits
  have hforest := hs.forest
  rw [hc] at hforest
  have htop : ∀ n, s.explorer.forest.InTree n → n ∈ s.explorer.forest.top := by
    intro n hn
    induction hn with
    | top hn => exact hn
    | @under m n hm hn ih =>
        obtain ⟨i, owner, -, howner, hfits⟩ := hforest.of_mem hn
        obtain ⟨p, hp, rfl⟩ := Option.map_eq_some_iff.mp howner
        cases hfits with
        | package _ _ _ _ _ htestname => exact absurd htestname htest
        | file _ _ hname htestname => exact absurd ⟨_, hname, htestname⟩ htest
        | leaf hfile =>
            -- the owner is a file, yet no top item is one
            rcases hforest.stands (.top ih) hp with ⟨-, hroot⟩ | ⟨k, q, -, hchild, -⟩
            · cases hroot with
              | root hroot =>
                  have hkind := hroot.isRoot
                  rw [hfile] at hkind
                  exact absurd hkind (by decide)
            · exact absurd hchild (hforest.consistent.not_mem_children ih k)
  intro m n hm hn hid
  exact hforest.consistent.distinct .top m n (htop m hm) (htop n hn) hid

/-! ## Where they do -/

theorem Arises.foldersChanged (h : Arises admits c s) (hw : admits w) {added removed : List String}
    {e : Explorer} (hchange : s.explorer.changeFolders w added removed = .ok e) :
    ∃ s', Arises admits c s' ∧ s'.explorer = e := by
  have hbegin : s.explorer.begin w (.foldersChanged added removed) =
      .ok (.answered .done, e) := by
    rw [Explorer.begin, hchange]
    rfl
  exact ⟨_, h.step .silent _ hw (step_call_of_ok .silent hbegin), rfl⟩

theorem Arises.update (h : Arises admits c s) (hw : admits w) {p : SymbolProvider} {d : Document}
    (htest : s.explorer.conventions.isTestFile (base w.cwd d.path) = true) {answer : Answer}
    {e : Explorer} (hfinish : s.explorer.finish w p (.update d) = .ok (answer, e)) :
    ∃ s', Arises admits c s' ∧ s'.explorer = e := by
  have hbegin : s.explorer.begin w (.update d) = .ok (.waiting (.update d), s.explorer) := by
    rw [Explorer.begin_update, Explorer.beginUpdate, if_pos htest]
  have hcall : (s.calls.push (.waiting (.update d)))[s.calls.size]? =
      some (.waiting (.update d)) := Array.getElem?_push_size
  have hbegun := h.step p _ hw (step_call_of_ok p hbegin)
  exact ⟨_, hbegun.step p _ hw (step_settle_of_ok p hcall hfinish), rfl⟩

/-- A test file in a directory without an owner can be opened. -/
theorem Arises.exists_hasOpened (hadmits : ∀ w', admits w' → w.HasSameManifests c w')
    (hw : admits w) (h : Arises admits c s) {directory name root : String}
    (hdirectory : IsLocation directory) (hname : IsSegment name)
    (htest : c.isTestFile name = true) (hnone : w.nearestManifest c directory = none)
    (haround : s.explorer.folderAround w directory = some root)
    (hreach : c.Reaches root directory) :
    ∃ s', Arises admits c s' ∧
      s.explorer.HasOpened s'.explorer root (Path.below directory name) := by
  obtain ⟨hs, hc⟩ := h.isOrderly_ofOwners hadmits
  have hJ := h.holds_ofOwners hadmits hw
  rw [← hc] at htest hreach
  have hcanonical := canonical_of_isLocation (hdirectory.below hname) w.cwd
  generalize hfile : Path.below directory name = file at hcanonical ⊢
  have hpath : canonical w.cwd (Document.mk file "" 0).path = Path.below directory name :=
    hcanonical.trans hfile.symm
  -- the text of the document is of no account, so it is left empty
  obtain ⟨answer, e, hfinish, hopened⟩ := Explorer.exists_hasOpened (hadmits w hw).memory hJ hs
    .silent hdirectory hname hpath htest (fun o ho => Eq.trans ho hnone) haround hreach
  have hbase : s.explorer.conventions.isTestFile (base w.cwd (Document.mk file "" 0).path) =
      true := by
    rw [base, hpath, lastPart_below hdirectory hname]
    exact htest
  obtain ⟨s', hs', rfl⟩ := h.update hw hbase hfinish
  exact ⟨s', hs', hfile ▸ hopened⟩

/-- A directory in one folder is opened below an outer folder first, and below the inner one once
that is among the folders: then one file has two items. -/
theorem exists_not_hasUniqueIds (hadmits : ∀ w', admits w' → w.HasSameManifests c w')
    (hw : admits w) (htest : c.HasTestName) {folders : List String}
    (hoverlap : w.Overlaps c (folders.map (canonical w.cwd))) :
    ∃ s, Arises admits c s ∧
      (∀ f, f ∈ s.explorer.folders ↔ f ∈ folders.map (canonical w.cwd)) ∧
      ¬ s.explorer.forest.HasUniqueIds := by
  obtain ⟨name, hname, htest⟩ := htest
  obtain ⟨inner, hinner, outer, houter, hne, hreach, hnone⟩ := hoverlap
  have hmemory := (hadmits w hw).memory
  have hlocation : ∀ f ∈ folders.map (canonical w.cwd), IsLocation f := by
    intro f hf
    obtain ⟨folder, -, rfl⟩ := List.mem_map.mp hf
    exact isLocation_canonical hmemory.rooted folder
  generalize hall : folders.map (canonical w.cwd) = all at hinner houter hlocation
  have hilocation := hlocation inner hinner
  have holocation := hlocation outer houter
  have hin := (hreach.isAtOrBelow holocation).2
  -- with the outer folder alone, the file is placed below that
  have hstart : Arises admits c (ofExplorer (.start w c [outer])) := .start [outer] hw
  have hfolders : (ofExplorer (.start w c [outer])).explorer.folders = [outer] := by
    show ([outer].map (canonical w.cwd)).eraseDups = [outer]
    rw [List.map_singleton, canonical_of_isLocation holocation]
    rfl
  generalize ofExplorer (.start w c [outer]) = s₀ at hstart hfolders
  have haround : s₀.explorer.folderAround w inner = some outer := by
    apply Explorer.folderAround_eq (hstart.isOrderly_ofOwners hadmits).1.folders hilocation _ hin
    · intro f hf _ hother
      rw [hfolders, List.mem_singleton] at hf
      exact absurd hf hother
    · rw [hfolders]
      exact List.mem_singleton_self outer
  obtain ⟨s₁, hs₁, hopened⟩ :=
    hstart.exists_hasOpened hadmits hw hilocation hname htest hnone haround hreach
  -- with all folders, it is placed below the inner one
  have horderly := (hs₁.isOrderly_ofOwners hadmits).1
  obtain ⟨e, hchange, -, -, -, hfolders', hgrows⟩ :=
    Explorer.changeFolders_spec hmemory (hs₁.holds_ofOwners hadmits hw) horderly folders []
  obtain ⟨s₂, hs₂, rfl⟩ := hs₁.foldersChanged hw hchange
  have hmem : ∀ f, f ∈ s₂.explorer.folders ↔ f ∈ all := by
    intro f
    rw [hfolders', hopened.folders, hfolders, Explorer.mem_changedFolders_nil, hall,
      List.mem_singleton]
    constructor
    · rintro (rfl | hf)
      · exact houter
      · exact hf
    · exact Or.inr
  have haround' : s₂.explorer.folderAround w inner = some inner := by
    apply Explorer.folderAround_eq (hs₂.isOrderly_ofOwners hadmits).1.folders hilocation
      ((hmem inner).mpr hinner) (isAtOrBelow_refl inner)
    intro f hf hbelow hother
    exact length_lt_of_isAtOrBelow hilocation (hlocation f ((hmem f).mp hf)) hbelow hother.symm
  obtain ⟨s₃, hs₃, hopened'⟩ := hs₂.exists_hasOpened hadmits hw hilocation hname htest hnone
    haround' (.refl c inner)
  refine ⟨s₃, hs₃, ?_, ?_⟩
  · intro f
    rw [hopened'.folders]
    exact hmem f
  · exact hopened.not_hasUniqueIds (hs₃.isOrderly_ofOwners hadmits).1 (hgrows rfl) hopened' hne

/-! ## Exactly when -/

/-- Whatever happens to the files, items with one identifier below one top item are one item.  While
the manifests stay as they are, the identifiers of the tree are unique in every session with the
given folders, unless there can be test files and the folders overlap. -/
theorem uniqueIds_iff (hadmits : ∀ w', admits w' → w.HasSameManifests c w') (hw : admits w)
    (folders : List String) :
    (∀ s, Arises (fun w' => w'.IsInMemory ∧ w'.cwd = w.cwd) c s → ∀ r m n,
      s.explorer.forest.IsBelow r m → s.explorer.forest.IsBelow r n →
        s.explorer.forest.idOf? m = s.explorer.forest.idOf? n → m = n) ∧
    ((∀ s, Arises admits c s →
      (∀ f, f ∈ s.explorer.folders ↔ f ∈ folders.map (canonical w.cwd)) →
        s.explorer.forest.HasUniqueIds) ↔
      ¬ (c.HasTestName ∧ w.Overlaps c (folders.map (canonical w.cwd)))) := by
  constructor
  · -- below one top item the loose judgement is enough, so the files may change at will
    intro s hs r m n hm hn hid
    have hholds : ∀ w' : Workspace, w'.IsInMemory ∧ w'.cwd = w.cwd →
        w'.IsInMemory ∧ w'.cwd = w.cwd ∧ Judgement.loose.Holds w' c :=
      fun w' hw' => ⟨hw'.1, hw'.2, Judgement.holds_loose w' c⟩
    obtain ⟨horderly, -⟩ := hs.isOrderly hholds
    exact horderly.explorer.forest.eq_of_isBelow hm hn hid
  · constructor
    · rintro hunique ⟨htest, hoverlap⟩
      obtain ⟨s, hs, hfolders, hnot⟩ := exists_not_hasUniqueIds hadmits hw htest hoverlap
      exact hnot (hunique s hs hfolders)
    · intro hnot s hs hfolders
      by_cases htest : c.HasTestName
      · apply hs.hasUniqueIds hadmits
        rintro ⟨inner, hinner, outer, houter, hrest⟩
        exact hnot ⟨htest, inner, (hfolders inner).mp hinner, outer, (hfolders outer).mp houter,
          hrest⟩
      · exact hs.hasUniqueIds_of_not_hasTestName hadmits htest

/-- One folder cannot overlap with itself. -/
theorem uniqueIds_iff_singleFolder :
    let w := Workspace.holding "/" [("/a/b/x_test.go", "package b")]
    ∀ s, Arises (· = w) .usual s →
      (∀ f, f ∈ s.explorer.folders ↔ f ∈ ["/a"].map (canonical "/")) →
        s.explorer.forest.HasUniqueIds := by
  intro w
  have hw : w.IsInMemory := Workspace.isInMemory_holding (by decide) _
  have hadmits : ∀ w', w' = w → w.HasSameManifests .usual w' := by
    rintro w' rfl
    exact ⟨hw, rfl, fun _ _ => rfl⟩
  apply ((uniqueIds_iff hadmits rfl ["/a"]).2).mpr
  rintro ⟨-, inner, hinner, outer, houter, hne, -⟩
  rw [List.map_singleton, List.mem_singleton] at hinner houter
  exact hne (hinner.trans houter.symm)

/-- With one folder inside another one, a file gets two items as soon as the tree is filled in. -/
theorem not_uniqueIds_nestedFolders :
    ¬ ∀ (w : Workspace) (c : Conventions) (s : Session), w.IsInMemory → Arises (· = w) c s →
      s.explorer.forest.HasUniqueIds := by
  intro hunique
  let w := Workspace.holding "/" [("/a/b/x_test.go", "package b")]
  have hw : w.IsInMemory := Workspace.isInMemory_holding (by decide) _
  -- both folders, the package below the outer one, and then the files of that package
  have hview : ((ofExplorer (.start w .usual ["/a", "/a/b"])).run w .silent
      [.call .expandTop, .call (.expand 0), .call (.expand 1), .call (.expand 2)]).toOption.map
        (fun s => (s.explorer.forest.top, [0, 1, 2].map s.explorer.forest.children,
          s.explorer.forest.idOf? 3, s.explorer.forest.idOf? 4)) =
      some ([0, 1], [[2], [3], [4]], some "file:///a/b/x_test.go?file",
        some "file:///a/b/x_test.go?file") := by
    decide +kernel
  obtain ⟨s, hrun, hview⟩ := exists_ok_of_view hview
  simp only [Prod.mk.injEq, List.map_cons, List.cons.injEq] at hview
  obtain ⟨htop, ⟨hpackage, hfile, hfile', -⟩, hid, hid'⟩ := hview
  have hstart : Arises (· = w) .usual (ofExplorer (.start w .usual ["/a", "/a/b"])) :=
    .start ["/a", "/a/b"] rfl
  have hs := hstart.run rfl .silent hrun
  have h0 : s.explorer.forest.InTree 0 := .top (by rw [htop]; simp)
  have h1 : s.explorer.forest.InTree 1 := .top (by rw [htop]; simp)
  have h2 : s.explorer.forest.InTree 2 := .under h0 (by rw [hpackage]; simp)
  have h3 : s.explorer.forest.InTree 3 := .under h1 (by rw [hfile]; simp)
  have h4 : s.explorer.forest.InTree 4 := .under h2 (by rw [hfile']; simp)
  exact absurd (hunique w .usual s hw hs 3 4 h3 h4 (hid.trans hid'.symm)) (by decide)

end Session

end TestAtlas
