import TestAtlas.Explorer.Removal
import TestAtlas.Proofs.Explorer.Expansion

/-!
# Taking items out succeeds

An item of the tree is held somewhere, and so is its parent.  So pruning never fails on what is in
the tree, and deleting a path always succeeds.  A change of folders takes out the top items inside
the removed folders, so what stays belongs to the folders that are left.
-/

namespace TestAtlas

open TestAtlas.Path

namespace Forest

variable {cwd : String} {c : Conventions} {J : Judgement} {folders : List String} {f : Forest}

/-- Only leaves stand below a file, so taking out what is no leaf keeps the leaves. -/
theorem keepsLeaves_release (h : f.IsOrderly cwd (Belongs c J folders)) {place : Place}
    {n : ItemNo} (hn : n ∈ f.members place)
    (hnonleaf : ∀ i, f.item? n = some i → i.kind.isLeaf = false) :
    f.KeepsLeaves (f.release place n) := by
  obtain ⟨i, owner, hi, howner, hfits⟩ := h.of_mem hn
  have howner' : (f.release place n).ownerAt place = some owner := by
    rw [ownerAt_release]
    exact howner
  refine keepsLeaves_of_frame ?_ howner' (hfits.owner_ne_file (hnonleaf i hi))
  intro p hp
  rw [members_release, if_neg hp]

theorem prune_of_mem_top (h : f.IsConsistent) {n : ItemNo} (hn : n ∈ f.top) :
    f.prune n = .ok ([(f.idOf? n).getD ""], f.release .top n) := by
  have hheld : f.holder? n = some .top := (h.holds .top n).mp hn
  rw [prune, detach, parent?, hheld]
  rfl

/-- An item that is held by another one is taken out of it, and the other one is taken out as well
if it is a package and has become empty. -/
theorem prune_of_mem_children (h : f.IsConsistent) {m n : ItemNo} {place : Place}
    (hn : n ∈ f.children m) (hm : m ∈ f.members place) (hne : m ≠ n) :
    f.prune n = .ok (if (f.release (.under m) n).isEmptyPackage m then
        ([(f.idOf? n).getD "", (f.idOf? m).getD ""], (f.release (.under m) n).release place m)
      else ([(f.idOf? n).getD ""], f.release (.under m) n)) := by
  have hheld : f.holder? n = some (.under m) := (h.holds (.under m) n).mp hn
  have hplace : (f.release (.under m) n).holder? m = some place := by
    rw [holder?_release, if_neg hne]
    exact (h.holds place m).mp hm
  rw [prune, detach, parent?, hheld]
  simp only [Place.owner, Option.bind_some, bind, Except.bind, detach, hplace]
  split <;> rfl

/-- An item of the tree can be pruned: it is taken out of its place, and the package above it is
taken out as well if that has become empty. -/
theorem prune_cases {good : Item → Prop} {fits : Option Item → Item → Prop} {rank : Item → Nat}
    (h : f.IsArranged good fits) (hrank : ∀ p i, fits (some p) i → rank p < rank i) {n : ItemNo}
    (hn : f.InTree n) :
    ∃ place ids, n ∈ f.members place ∧ (f.prune n = .ok (ids, f.release place n) ∨
      ∃ m q, (f.release place n).isEmptyPackage m = true ∧ m ∈ (f.release place n).members q ∧
        f.prune n = .ok (ids, (f.release place n).release q m)) := by
  cases hn with
  | top hmem => exact ⟨.top, _, hmem, Or.inl (prune_of_mem_top h.consistent hmem)⟩
  | @under m _ hm hmem =>
      have hne := (h.isRanked hrank).ne_of_mem_children hmem
      obtain ⟨q, hq⟩ := hm.exists_mem
      have hprune := prune_of_mem_children h.consistent hmem hq hne
      split at hprune
      · rename_i hempty
        exact ⟨.under m, _, hmem, Or.inr ⟨m, q, hempty, mem_release.mpr ⟨hq, fun _ => hne⟩, hprune⟩⟩
      · exact ⟨.under m, _, hmem, Or.inl hprune⟩

/-- An item of the tree that is no leaf can be pruned. -/
theorem prune_spec (h : f.IsOrderly cwd (Belongs c J folders)) {n : ItemNo} (hn : f.InTree n)
    (hnonleaf : ∀ i, f.item? n = some i → i.kind.isLeaf = false) :
    ∃ ids g, f.prune n = .ok (ids, g) ∧ g.IsOrderly cwd (Belongs c J folders) ∧ f.Keeps g ∧
      f.KeepsLeaves g := by
  obtain ⟨place, ids, hmem, hprune | ⟨m, q, hempty, hmem', hprune⟩⟩ :=
    prune_cases h Belongs.level_lt hn
  · exact ⟨ids, _, hprune, h.release hmem, keeps_release f place n,
      keepsLeaves_release h hmem hnonleaf⟩
  · have hg := h.release hmem
    have hkeeps := keeps_release (f.release place n) q m
    have hpackage : ∀ k, (f.release place n).item? m = some k → k.kind.isLeaf = false := by
      intro k hk
      rw [isEmptyPackage, hk, Option.any_some, Bool.and_eq_true, beq_iff_eq] at hempty
      rw [hempty.1]
      rfl
    exact ⟨ids, _, hprune, hg.release hmem', (keeps_release f place n).trans hkeeps,
      (keepsLeaves_release h hmem hnonleaf).trans (keepsLeaves_release hg hmem' hpackage) hkeeps⟩

/-- Several items that are no leaves can be pruned, whether they are still in the tree or not. -/
theorem pruneAll_spec (h : f.IsOrderly cwd (Belongs c J folders)) {ns : List ItemNo}
    (hns : ∀ n ∈ ns, ∃ i, f.item? n = some i ∧ i.kind.isLeaf = false) :
    ∃ ids g, f.pruneAll ns = .ok (ids, g) ∧ g.IsOrderly cwd (Belongs c J folders) ∧ f.Keeps g ∧
      f.KeepsLeaves g := by
  induction ns generalizing f with
  | nil => exact ⟨[], f, rfl, h, Keeps.refl f, KeepsLeaves.refl f⟩
  | cons n ns ih =>
      obtain ⟨i, hi, hnonleaf⟩ := hns n List.mem_cons_self
      rw [pruneAll]
      split
      · rename_i hattached
        have hn := (isAttached_iff h Belongs.level_lt n).mp hattached
        obtain ⟨ids, g, hprune, hg, hkeeps, hleaves⟩ := prune_spec h hn fun j hj => by
          rw [hi, Option.some.injEq] at hj
          exact hj ▸ hnonleaf
        obtain ⟨more, g', hall, hg', hkeeps', hleaves'⟩ := ih hg fun m hm => by
          obtain ⟨j, hj, hnonleaf'⟩ := hns m (List.mem_cons_of_mem _ hm)
          exact ⟨j, hkeeps m j hj, hnonleaf'⟩
        refine ⟨ids ++ more, g', ?_, hg', hkeeps.trans hkeeps', hleaves.trans hleaves' hkeeps'⟩
        rw [hprune]
        simp only [bind, Except.bind, hall]
        rfl
      · exact ih h fun m hm => hns m (List.mem_cons_of_mem _ hm)

/-- What is taken out below a deleted path are packages and files. -/
theorem not_isLeaf_of_mem_containersWithin {target : String} {n : ItemNo}
    (hn : n ∈ f.containersWithin cwd target) : ∃ i, f.item? n = some i ∧ i.kind.isLeaf = false := by
  obtain ⟨-, hany⟩ := List.mem_filter.mp hn
  obtain ⟨i, hi, hkind⟩ := (Option.any_eq_true _ _).mp hany
  refine ⟨i, hi, ?_⟩
  rw [Bool.and_eq_true, Bool.or_eq_true, beq_iff_eq, beq_iff_eq] at hkind
  rcases hkind.1 with hk | hk <;> rw [hk] <;> rfl

end Forest

namespace Explorer

/-- The conventions are the same, and every item is still there, in the tree or not. -/
structure Keeps (e e' : Explorer) : Prop where
  conventions : e'.conventions = e.conventions
  forest : e.forest.Keeps e'.forest

theorem Keeps.refl (e : Explorer) : e.Keeps e := ⟨rfl, Forest.Keeps.refl _⟩

theorem Grows.toKeeps {e e' : Explorer} (h : e.Grows e') : e.Keeps e' :=
  ⟨h.conventions, h.forest.keeps⟩

variable {w : Workspace} {J : Judgement} {e : Explorer}

/-- A deleted path can always be taken out of the tree. -/
theorem remove_spec (h : e.IsOrderly w.cwd J) (path : String) :
    ∃ ids e', e.remove w path = .ok (ids, e') ∧ e'.IsOrderly w.cwd J ∧ e.Keeps e' ∧
      e.forest.KeepsLeaves e'.forest := by
  have hcontainers : ∀ n ∈ e.forest.containersWithin w.cwd (canonical w.cwd path),
      ∃ i, e.forest.item? n = some i ∧ i.kind.isLeaf = false :=
    fun n hn => Forest.not_isLeaf_of_mem_containersWithin hn
  obtain ⟨ids, g, hall, hg, hkeeps, hleaves⟩ := Forest.pruneAll_spec h.forest hcontainers
  unfold remove
  simp only [hall, bind, Except.bind]
  refine ⟨_, _, rfl, ?_, ?_, ?_⟩
  · split <;> exact ⟨hg, h.survey, h.folders⟩
  · split <;> exact ⟨rfl, hkeeps⟩
  · split <;> exact hleaves

/-! ## Changed folders -/

/-- Top items were taken out: those of the given ones that lie inside a removed folder are gone, those
that lie in none are still there, and nothing was made or moved. -/
structure HasDropped (w : Workspace) (removed : List String) (e e' : Explorer)
    (ns : List ItemNo) : Prop where
  conventions : e'.conventions = e.conventions
  folders : e'.folders = e.folders
  documents : e'.documents = e.documents
  owners : e'.survey.owners = e.survey.owners
  items : ∀ n, e'.forest.item? n = e.forest.item? n
  orderly : ∀ {cwd : String} {fits : Option Item → Item → Prop}, e.forest.IsOrderly cwd fits →
    e'.forest.IsOrderly cwd fits
  frame : ∀ place, place ≠ .top → e'.forest.members place = e.forest.members place
  top : List.Sublist e'.forest.top e.forest.top
  gone : ∀ n ∈ ns, ∀ i, e.forest.item? n = some i →
    (removed.any fun r => isWithin w.cwd i.location r) = true → n ∉ e'.forest.top
  kept : ∀ n ∈ e.forest.top, ∀ i, e.forest.item? n = some i →
    (removed.any fun r => isWithin w.cwd i.location r) = false → n ∈ e'.forest.top

theorem dropRoot_spec {cwd : String} {fits : Option Item → Item → Prop} (removed : List String)
    (h : e.forest.IsOrderly cwd fits) (n : ItemNo) :
    HasDropped w removed e (dropRoot w removed e n) [n] := by
  -- two of the three cases leave the explorer as it is
  have hsame : ∀ hgone : ∀ i, e.forest.item? n = some i →
      (removed.any fun r => isWithin w.cwd i.location r) = true → n ∉ e.forest.top,
      HasDropped w removed e e [n] := by
    intro hgone
    refine ⟨rfl, rfl, rfl, rfl, fun _ => rfl, fun h => h, fun _ _ => rfl, .refl _, ?_,
      fun _ hm _ _ _ => hm⟩
    intro m hm i hi hin
    rw [List.mem_singleton] at hm
    subst hm
    exact hgone i hi hin
  unfold dropRoot
  split
  · rename_i item hitem
    split
    · rename_i hin
      have htop := Forest.members_delete h.consistent .top item.id .top
      rw [if_pos rfl] at htop
      refine ⟨rfl, rfl, rfl, rfl, Forest.item?_delete e.forest .top item.id,
        fun h => h.delete .top item.id, ?_, ?_, ?_, ?_⟩
      · intro place hplace
        exact (Forest.members_delete h.consistent .top item.id place).trans (if_neg hplace)
      · show List.Sublist ((e.forest.delete .top item.id).2.members .top) e.forest.top
        rw [htop]
        exact List.filter_sublist
      · intro m hm i hi _ hmem
        rw [List.mem_singleton] at hm
        subst hm
        change m ∈ (e.forest.delete .top item.id).2.members .top at hmem
        rw [htop, List.mem_filter, decide_eq_true_eq, Forest.idOf?, hitem] at hmem
        exact hmem.2 rfl
      · intro m hm i hi hout
        show m ∈ (e.forest.delete .top item.id).2.members .top
        rw [htop, List.mem_filter, decide_eq_true_eq]
        refine ⟨hm, fun hid => ?_⟩
        -- an item with the same identifier lies in the same place
        rw [Forest.idOf?, hi, Option.map_some, Option.some.injEq] at hid
        obtain ⟨hlocation, -⟩ := (h.genuine m i hi).eq_of_id (h.genuine n item hitem) hid
        rw [hlocation, hin] at hout
        exact absurd hout (by simp)
    · rename_i hout
      apply hsame
      intro i hi hin
      rw [hitem, Option.some.injEq] at hi
      rw [hi] at hout
      exact absurd hin hout
  · rename_i hnone
    apply hsame
    intro i hi
    rw [hnone] at hi
    exact absurd hi (by simp)

theorem foldl_dropRoot_spec {cwd : String} {fits : Option Item → Item → Prop}
    (removed : List String) (h : e.forest.IsOrderly cwd fits) (ns : List ItemNo) :
    HasDropped w removed e (ns.foldl (dropRoot w removed) e) ns := by
  induction ns generalizing e with
  | nil =>
      exact ⟨rfl, rfl, rfl, rfl, fun _ => rfl, fun h => h, fun _ _ => rfl, .refl _,
        fun n hn => absurd hn (by simp), fun _ hm _ _ _ => hm⟩
  | cons n ns ih =>
      have hstep := dropRoot_spec (w := w) removed h n
      rw [List.foldl_cons]
      generalize dropRoot w removed e n = t at hstep ⊢
      have hrest := ih (hstep.orderly h)
      generalize ns.foldl (dropRoot w removed) t = u at hrest ⊢
      refine ⟨hrest.conventions.trans hstep.conventions, hrest.folders.trans hstep.folders,
        hrest.documents.trans hstep.documents, hrest.owners.trans hstep.owners,
        fun m => (hrest.items m).trans (hstep.items m),
        fun ho => hrest.orderly (hstep.orderly ho),
        fun place hplace => (hrest.frame place hplace).trans (hstep.frame place hplace),
        hrest.top.trans hstep.top, ?_, ?_⟩
      · intro m hm i hi hin hmem
        rcases List.mem_cons.mp hm with rfl | hm
        · exact hstep.gone m (List.mem_singleton_self m) i hi hin (hrest.top.subset hmem)
        · exact hrest.gone m hm i ((hstep.items m).trans hi) hin hmem
      · intro m hm i hi hout
        exact hrest.kept m (hstep.kept m hm i hi hout) i ((hstep.items m).trans hi) hout

/-- The folders after some are removed and others are added. -/
def changedFolders (cwd : String) (folders added removed : List String) : List String :=
  ((folders.filter fun f => !(removed.map (canonical cwd)).contains f) ++
    added.map (canonical cwd)).eraseDups

/-- If none is removed, the folders are the old ones and those added. -/
theorem mem_changedFolders_nil {cwd : String} {folders added : List String} {f : String} :
    f ∈ changedFolders cwd folders added [] ↔ f ∈ folders ∨ f ∈ added.map (canonical cwd) := by
  simp only [changedFolders, List.map_nil, List.mem_eraseDups, List.mem_append, List.contains_nil,
    Bool.not_false, List.filter_true]

theorem isLocation_of_mem_changedFolders {cwd : String} (hrooted : isRooted cwd.toList = true)
    {folders added removed : List String} (h : ∀ f ∈ folders, IsLocation f) {f : String}
    (hf : f ∈ changedFolders cwd folders added removed) : IsLocation f := by
  rcases List.mem_append.mp (List.mem_eraseDups.mp hf) with hf | hf
  · exact h f (List.mem_of_mem_filter hf)
  · obtain ⟨folder, -, rfl⟩ := List.mem_map.mp hf
    exact isLocation_canonical hrooted folder

/-- Workspace items that were not taken out belong to folders that are left. -/
theorem IsOrderly.changeFolders (h : e.IsOrderly w.cwd J) {added removed : List String}
    (hrooted : isRooted w.cwd.toList = true) {e' : Explorer}
    (hdrop : HasDropped w (removed.map (canonical w.cwd))
      { e with folders := changedFolders w.cwd e.folders added removed } e' e.forest.top) :
    { e' with isSurveyed := false }.IsOrderly w.cwd J where
  forest := by
    have hforest := hdrop.orderly h.forest
    show e'.forest.IsOrderly w.cwd (Belongs e'.conventions J e'.folders)
    rw [hdrop.conventions, hdrop.folders]
    apply hforest.of_fits
    intro n i place owner hi hplace howner hfits
    refine hfits.congr_folders fun hnone hkind => ?_
    subst hnone
    -- only the top has no owner, and there nothing inside a removed folder is left
    have htop : place = .top := by
      cases place with
      | top => rfl
      | under m =>
          obtain ⟨j, -, hj⟩ := Option.map_eq_some_iff.mp howner
          exact absurd hj (by simp)
      | loose k => exact absurd howner (by simp [Forest.ownerAt])
    subst htop
    have hmem : n ∈ e'.forest.top := (hforest.consistent.holds .top n).mpr hplace
    have hitem : e.forest.item? n = some i := (hdrop.items n).symm.trans hi
    have hold : i.location ∈ e.folders := by
      cases hfits with
      | root hroot =>
          clear hdrop
          generalize i.kind = kind, i.location = location, i.label = label at hroot hkind ⊢
          cases hroot with
          | module => exact absurd hkind (by simp)
          | workspace _ hfolder => exact hfolder
    have hkept : (removed.map (canonical w.cwd)).contains i.location = false := by
      by_contra hcon
      have hin : i.location ∈ removed.map (canonical w.cwd) := by simpa using hcon
      refine hdrop.gone n (hdrop.top.subset hmem) i hitem ?_ hmem
      exact List.any_eq_true.mpr ⟨i.location, hin, isAtOrBelow_refl _⟩
    apply List.mem_eraseDups.mpr
    exact List.mem_append_left _ (List.mem_filter.mpr ⟨hold, by rw [hkept]; rfl⟩)
  survey := by
    show Survey.Agrees J.owns e'.survey.owners
    rw [hdrop.owners]
    exact h.survey
  folders := by
    intro f hf
    change f ∈ e'.folders at hf
    rw [hdrop.folders] at hf
    exact isLocation_of_mem_changedFolders hrooted h.folders hf

theorem foldl_dropRoot_nil (ns : List ItemNo) : ns.foldl (dropRoot w []) e = e := by
  induction ns with
  | nil => rfl
  | cons n ns ih =>
      have hsame : dropRoot w [] e n = e := by
        unfold dropRoot
        split <;> rfl
      rw [List.foldl_cons, hsame, ih]

/-- A change of the folders takes out top items and fills in the top items anew, without the old
survey. -/
theorem changeFolders_eq (h : e.IsOrderly w.cwd J) (hrooted : isRooted w.cwd.toList = true)
    (added removed : List String) :
    ∃ t, HasDropped w (removed.map (canonical w.cwd))
        { e with folders := changedFolders w.cwd e.folders added removed } t e.forest.top ∧
      { t with isSurveyed := false }.IsOrderly w.cwd J ∧
      e.changeFolders w added removed = { t with isSurveyed := false }.expandTop w ∧
      (removed = [] → t = { e with folders := changedFolders w.cwd e.folders added removed }) := by
  have hdrop := foldl_dropRoot_spec (w := w) (removed.map (canonical w.cwd))
    (e := { e with folders := changedFolders w.cwd e.folders added removed })
    h.forest e.forest.top
  refine ⟨_, hdrop, h.changeFolders hrooted hdrop, rfl, ?_⟩
  rintro rfl
  exact foldl_dropRoot_nil _

/-- The folders can always be changed; if none is removed, the tree only grows. -/
theorem changeFolders_spec (hw : w.IsInMemory) (hJ : J.Holds w e.conventions)
    (h : e.IsOrderly w.cwd J) (added removed : List String) :
    ∃ e', e.changeFolders w added removed = .ok e' ∧ e'.IsOrderly w.cwd J ∧ e.Keeps e' ∧
      e.forest.KeepsLeaves e'.forest ∧
      e'.folders = changedFolders w.cwd e.folders added removed ∧
      (removed = [] → e.forest.Grows e'.forest) := by
  obtain ⟨t, hdrop, ht, heq, hnil⟩ := changeFolders_eq h hw.rooted added removed
  have hJt : J.Holds w { t with isSurveyed := false }.conventions := by
    show J.Holds w t.conventions
    rw [hdrop.conventions]
    exact hJ
  obtain ⟨e', hexpand, he', hgrows⟩ := expandTop_spec hw hJt ht
  -- the top has no owner, so no file loses a leaf when items are dropped there
  have hleaves : e.forest.KeepsLeaves t.forest :=
    Forest.keepsLeaves_of_frame hdrop.frame (show t.forest.ownerAt .top = some none from rfl)
      fun _ hnone => absurd hnone (by simp)
  refine ⟨e', heq.trans hexpand, he', ⟨hgrows.conventions.trans hdrop.conventions, ?_⟩,
    hleaves.trans hgrows.leaves hgrows.forest.keeps, hgrows.folders.trans hdrop.folders, ?_⟩
  · intro n i hi
    exact hgrows.forest.keeps n i ((hdrop.items n).trans hi)
  · intro hremoved
    have hforest := hgrows.forest
    rwa [hnil hremoved] at hforest

end Explorer

end TestAtlas
