import TestAtlas.Proofs.Explorer.Call
import TestAtlas.Proofs.Explorer.Encoding
import TestAtlas.Proofs.Workspace.Roots

/-!
# The layers of the tree

Whatever the files are, the tree has four layers: roots, packages, files and leaves, each item
further down than the one that holds it, and a leaf below the file at its location.  This much needs
nothing from the workspace, neither that its listings make sense nor that it is the same at each
request, and it is enough for every request to be served as far as the texts can be encoded.  Each
lemma here takes one part of a request and says that it succeeds on a layered tree, or ends at a
text that cannot be encoded, and leaves a layered tree with all the items from before.
-/

namespace TestAtlas

/-- The item has the identifier of its location, its kind and its name, as seen from some
directory. -/
def Item.IsIdentified (i : Item) : Prop :=
  ∃ cwd, Id.ofKind cwd i.location i.kind i.name = .ok i.id

/-- Items with one identifier are of one kind, wherever they are seen from. -/
theorem Item.IsIdentified.kind_eq {i j : Item} (hi : i.IsIdentified) (hj : j.IsIdentified)
    (h : i.id = j.id) : i.kind = j.kind := by
  obtain ⟨cwd, hi⟩ := hi
  obtain ⟨cwd', hj⟩ := hj
  rw [h] at hi
  exact (Id.eq_of_ofKind_eq hi hj).2.1

theorem Container.isIdentified_item {k : Container} (hk : k.kind.isLeaf = false) (cwd : String) :
    (k.item cwd).IsIdentified :=
  ⟨cwd, Container.ofKind_item hk cwd⟩

theorem Leaf.IsGenuine.isIdentified_item {leaf : Leaf} (h : leaf.IsGenuine)
    (cwd location : String) : (leaf.item cwd location).IsIdentified :=
  ⟨cwd, h.ofKind_item cwd location⟩

/-- The item stands further down than its owner, if it has one, and a leaf stands below the file at
its location. -/
structure StandsLower (owner : Option Item) (i : Item) : Prop where
  level : ∀ p, owner = some p → p.level < i.level
  leaf : i.kind.isLeaf = true → ∃ p, owner = some p ∧ p.kind = .file ∧ p.location = i.location

theorem StandsLower.level_lt (p i : Item) (h : StandsLower (some p) i) : p.level < i.level :=
  h.level p rfl

theorem standsLower_top {i : Item} (hi : i.kind.isLeaf = false) : StandsLower none i where
  level := fun _ h => absurd h (by simp)
  leaf := fun h => absurd (h.symm.trans hi) (by decide)

theorem standsLower_under {p i : Item} (hi : i.kind.isLeaf = false) (h : p.level < i.level) :
    StandsLower (some p) i where
  level := by
    rintro _ ⟨⟩
    exact h
  leaf := fun h => absurd (h.symm.trans hi) (by decide)

theorem Item.level_of_isRoot {i : Item} (h : i.kind.isRoot = true) : i.level = 0 := by
  unfold Item.level
  cases hk : i.kind <;> rw [hk] at h <;> first | rfl | exact absurd h (by decide)

theorem Item.level_of_isLeaf {i : Item} (h : i.kind.isLeaf = true) : i.level = 3 := by
  unfold Item.level
  cases hk : i.kind <;> rw [hk] at h <;> first | rfl | exact absurd h (by decide)

theorem standsLower_leaf {p i : Item} (hp : p.kind = .file) (hi : i.kind.isLeaf = true)
    (hlocation : p.location = i.location) : StandsLower (some p) i where
  level := by
    rintro _ ⟨⟩
    rw [Item.level, hp, Item.level_of_isLeaf hi]
    decide
  leaf := fun _ => ⟨p, rfl, hp, hlocation⟩

theorem Container.level_item (k : Container) (cwd : String) : (k.item cwd).level = k.kind.level :=
  rfl

namespace Forest

/-- Every item has an identifier of its own kind, and stands further down than its owner, a leaf
below its file. -/
abbrev IsLayered (f : Forest) : Prop := f.IsArranged Item.IsIdentified StandsLower

/-- The forest is layered, and has all items of the one before as they were. -/
structure Continues (f g : Forest) : Prop where
  layered : g.IsLayered
  keeps : f.Keeps g

variable {f : Forest}

theorem Continues.refl (h : f.IsLayered) : f.Continues f := ⟨h, Keeps.refl f⟩

theorem Continues.trans {g h : Forest} (hfg : f.Continues g) (hgh : g.Continues h) :
    f.Continues h :=
  ⟨hgh.layered, hfg.keeps.trans hgh.keeps⟩

/-! ## Taking items out -/

theorem prune_continues (h : f.IsLayered) {n : ItemNo} (hn : f.InTree n) :
    ∃ ids g, f.prune n = .ok (ids, g) ∧ f.Continues g := by
  obtain ⟨place, ids, hmem, hprune | ⟨m, q, -, hmem', hprune⟩⟩ :=
    prune_cases h StandsLower.level_lt hn
  · exact ⟨ids, _, hprune, h.release hmem, keeps_release f place n⟩
  · exact ⟨ids, _, hprune, (h.release hmem).release hmem',
      (keeps_release f place n).trans (keeps_release _ q m)⟩

/-- Any items can be pruned; those that are no longer in the tree are passed over. -/
theorem pruneAll_continues (h : f.IsLayered) (ns : List ItemNo) :
    ∃ ids g, f.pruneAll ns = .ok (ids, g) ∧ f.Continues g := by
  induction ns generalizing f with
  | nil => exact ⟨[], f, rfl, .refl h⟩
  | cons n ns ih =>
      rw [pruneAll]
      split
      · rename_i hattached
        have hn := (isAttached_iff h StandsLower.level_lt n).mp hattached
        obtain ⟨ids, g, hprune, hg⟩ := prune_continues h hn
        obtain ⟨more, g', hall, hg'⟩ := ih hg.layered
        refine ⟨ids ++ more, g', ?_, hg.trans hg'⟩
        rw [hprune]
        simp only [bind, Except.bind, hall]
        rfl
      · exact ih h

end Forest

namespace Explorer

variable {w : Workspace} {e : Explorer}

/-- Dropping top items succeeds whatever they are. -/
theorem dropRoot_continues (removed : List String) (h : e.forest.IsLayered) (n : ItemNo) :
    e.forest.Continues (dropRoot w removed e n).forest := by
  unfold dropRoot
  split
  · rename_i item _
    split
    · exact ⟨h.delete .top item.id, fun m i hi => (Forest.item?_delete _ .top item.id m).trans hi⟩
    · exact .refl h
  · exact .refl h

theorem foldl_dropRoot_continues (removed : List String) (h : e.forest.IsLayered)
    (ns : List ItemNo) : e.forest.Continues (ns.foldl (dropRoot w removed) e).forest := by
  induction ns generalizing e with
  | nil => exact .refl h
  | cons n ns ih =>
      have hstep := dropRoot_continues (w := w) removed h n
      exact hstep.trans (ih hstep.layered)

theorem remove_continues (h : e.forest.IsLayered) (w : Workspace) (path : String) :
    ∃ ids e', e.remove w path = .ok (ids, e') ∧ e.forest.Continues e'.forest := by
  obtain ⟨ids, g, hall, hg⟩ :=
    Forest.pruneAll_continues h (e.forest.containersWithin w.cwd (Path.canonical w.cwd path))
  unfold remove
  simp only [hall, bind, Except.bind]
  refine ⟨_, _, rfl, ?_⟩
  split <;> exact hg

/-! ## Putting containers in -/

/-- Below a root come at most a package and then the file. -/
theorem isChain_level_chainBelow (root directory file : String) :
    List.IsChain (· < ·) (0 :: (chainBelow root directory file).map fun k => k.kind.level) := by
  unfold chainBelow
  split <;> simp [Container.plain, Kind.level]

theorem getLastD_kind_chainBelow (root directory file : String) (k : Kind) :
    ((chainBelow root directory file).map Container.kind).getLastD k = .file := by
  unfold chainBelow
  split <;> rfl

section Serving

variable [StandIns]

/-- A part of a request that starts from a forest has a result with some property, or it ends at a
text that cannot be encoded and leaves a tree that goes on from the forest. -/
inductive Proceeds {α : Type} (f : Forest) (good : α → Prop) : Except Refusal α → Prop
  | ok {a : α} : good a → Proceeds f good (.ok a)
  | error {r : Refusal} : r.error.IsEncoding → f.Continues r.explorer.forest →
      Proceeds f good (.error r)

/-- What follows in a forest that goes on from an earlier one follows from the earlier one. -/
theorem Proceeds.after {α : Type} {f g : Forest} {good good' : α → Prop}
    {result : Except Refusal α} (h : Proceeds g good result) (hfg : f.Continues g)
    (hgood : ∀ a, good a → good' a) : Proceeds f good' result := by
  cases h with
  | ok h => exact .ok (hgood _ h)
  | error herr hg => exact .error herr (hfg.trans hg)

theorem Proceeds.bind {α β : Type} {f : Forest} {good : α → Prop} {good' : β → Prop}
    {result : Except Refusal α} {next : α → Except Refusal β} (h : Proceeds f good result)
    (hnext : ∀ a, good a → Proceeds f good' (next a)) : Proceeds f good' (result >>= next) := by
  cases h with
  | ok h => exact hnext _ h
  | error herr hg => exact .error herr hg

/-- A container that stands lower than the owner of a place can be put there, or is there
already. -/
theorem ensure_continues (h : e.forest.IsLayered) (w : Workspace) {place : Place}
    {owner : Option Item} (howner : e.forest.ownerAt place = some owner) {k : Container}
    (hk : k.kind.isLeaf = false) (hlower : StandsLower owner (k.item w.cwd)) :
    Proceeds e.forest (fun r => e.forest.Continues r.2.forest ∧
      ∃ i, r.2.forest.item? r.1 = some i ∧ i.kind = k.kind) (e.ensure w place k) := by
  have hplace := Forest.hasPlace_of_ownerAt howner
  have hidentified := Container.isIdentified_item hk w.cwd
  rcases ensure_cases_encoding e w place k with hsame | ⟨err, herror, herr⟩
  · rw [hsame]
    rcases ensure_cases h.consistent hplace hk with
      ⟨n, i, hensure, -, hi, hid⟩ | ⟨hfind, hensure, -, hi⟩
    · rw [hensure]
      exact .ok ⟨.refl h, i, hi, (h.genuine n i hi).kind_eq hidentified hid⟩
    · have hput := h.put howner hidentified hlower hfind
      rw [hensure]
      exact .ok ⟨⟨hput, (Forest.grows_put hplace _).keeps⟩, k.item w.cwd, hi, rfl⟩
  · rw [herror]
    exact .error herr (.refl h)

theorem ensureAll_continues (h : e.forest.IsLayered) (w : Workspace) {place : Place}
    {owner : Option Item} (howner : e.forest.ownerAt place = some owner) {ks : List Container}
    (hks : ∀ k ∈ ks, k.kind.isLeaf = false ∧ StandsLower owner (k.item w.cwd)) :
    Proceeds e.forest (fun e' => e.forest.Continues e'.forest) (e.ensureAll w place ks) := by
  induction ks generalizing e with
  | nil => exact .ok (.refl h)
  | cons k ks ih =>
      obtain ⟨hk, hlower⟩ := hks k List.mem_cons_self
      rw [ensureAll]
      refine (ensure_continues h w howner hk hlower).bind fun r hr => ?_
      have hall := ih hr.1.layered (hr.1.keeps.ownerAt howner)
        fun k' hk' => hks k' (List.mem_cons_of_mem _ hk')
      exact hall.after hr.1 fun e' he' => hr.1.trans he'

/-- Containers each of which stands lower than the one before can be put in as a chain. -/
theorem ensureChain_continues (h : e.forest.IsLayered) (w : Workspace) {n : ItemNo} {i : Item}
    (hi : e.forest.item? n = some i) {ks : List Container}
    (hleaf : ∀ k ∈ ks, k.kind.isLeaf = false)
    (hlower : List.IsChain (· < ·) (i.level :: ks.map fun k => k.kind.level)) :
    Proceeds e.forest (fun r => e.forest.Continues r.2.forest ∧
      ∃ j, r.2.forest.item? r.1 = some j ∧ j.kind = (ks.map Container.kind).getLastD i.kind)
      (e.ensureChain w n ks) := by
  induction ks generalizing e n i with
  | nil => exact .ok ⟨.refl h, i, hi, rfl⟩
  | cons k ks ih =>
      rw [List.map_cons, List.isChain_cons_cons] at hlower
      rw [ensureChain]
      refine (ensure_continues h w (Forest.ownerAt_under hi) (hleaf k List.mem_cons_self)
        (standsLower_under (hleaf k List.mem_cons_self) hlower.1)).bind ?_
      rintro ⟨l, t⟩ ⟨ht, j, hj, hkind⟩
      have hrest : List.IsChain (· < ·) (j.level :: ks.map fun k => k.kind.level) := by
        rw [Item.level, hkind]
        exact hlower.2
      refine (ih ht.layered hj (fun k' hk' => hleaf k' (List.mem_cons_of_mem _ hk')) hrest).after ht
        ?_
      rintro r ⟨hr, i', hi', hlast⟩
      refine ⟨ht.trans hr, i', hi', ?_⟩
      rw [hlast, hkind, List.map_cons]
      cases ks <;> rfl

/-! ## Filling in and placing -/

theorem expandTop_continues (h : e.forest.IsLayered) (w : Workspace) :
    Proceeds e.forest (fun e' => e.forest.Continues e'.forest) (e.expandTop w) := by
  rw [← forest_surveyed e w] at h ⊢
  unfold expandTop
  generalize e.surveyed w = s at h ⊢
  have hroots : ∀ k ∈ (s.survey.buildRoots w s.conventions s.folders).1, k.kind.isRoot = true :=
    fun k hk => Survey.isRoot_of_mem_buildRoots hk
  simp only
  generalize s.survey.buildRoots w s.conventions s.folders = found at hroots ⊢
  exact ensureAll_continues (e := { s with survey := found.2 }) h w
    (show s.forest.ownerAt .top = some none from rfl)
    fun k hk =>
      have hleaf := Kind.isLeaf_eq_false_of_isRoot (hroots k hk)
      ⟨hleaf, standsLower_top hleaf⟩

/-- Packages and files stand lower than a root. -/
theorem expandRoot_continues (h : e.forest.IsLayered) (w : Workspace) {n : ItemNo} {item : Item}
    (hitem : e.forest.item? n = some item) (hroot : item.kind.isRoot = true) :
    Proceeds e.forest (fun e' => e.forest.Continues e'.forest) (e.expandRoot w n item) := by
  rw [← forest_surveyed e w] at h hitem ⊢
  unfold expandRoot
  generalize e.surveyed w = s at h hitem ⊢
  simp only
  generalize s.survey.rootChildren w s.conventions item.location (ownerOfRoot item) = found
  refine ensureAll_continues (e := { s with survey := found.2.2 }) h w
    (Forest.ownerAt_under hitem) fun k hk => ?_
  have hkind : k.kind = .package ∨ k.kind = .file := by
    rcases List.mem_append.mp hk with hk | hk <;> obtain ⟨_, -, rfl⟩ := List.mem_map.mp hk
    · exact Or.inl rfl
    · exact Or.inr rfl
  rcases hkind with hkind | hkind
  all_goals
    have hleaf : k.kind.isLeaf = false := by rw [hkind]; rfl
    refine ⟨hleaf, standsLower_under hleaf ?_⟩
    rw [Item.level_of_isRoot hroot, Container.level_item, hkind]
    decide

/-- Files stand lower than a package. -/
theorem expandPackage_continues (h : e.forest.IsLayered) (w : Workspace) {n : ItemNo} {item : Item}
    (hitem : e.forest.item? n = some item) (hpackage : item.kind = .package) :
    Proceeds e.forest (fun e' => e.forest.Continues e'.forest) (e.expandPackage w n item) := by
  unfold expandPackage
  generalize e.survey.packageFiles w e.conventions item.location = found
  refine ensureAll_continues (e := { e with survey := found.2 }) h w
    (Forest.ownerAt_under hitem) fun k hk => ?_
  have hkind : k.kind = .file := by
    obtain ⟨_, -, rfl⟩ := List.mem_map.mp hk
    rfl
  have hleaf : k.kind.isLeaf = false := by rw [hkind]; rfl
  refine ⟨hleaf, standsLower_under hleaf ?_⟩
  rw [Item.level, hpackage, Container.level_item, hkind]
  decide

theorem changeFolders_continues (h : e.forest.IsLayered) (w : Workspace)
    (added removed : List String) :
    Proceeds e.forest (fun e' => e.forest.Continues e'.forest)
      (e.changeFolders w added removed) := by
  unfold changeFolders
  have hdrop := foldl_dropRoot_continues (w := w) (removed.map (Path.canonical w.cwd))
    (e := { e with folders := changedFolders w.cwd e.folders added removed }) h e.forest.top
  rw [changedFolders] at hdrop
  simp only
  generalize e.forest.top.foldl _ _ = t at hdrop ⊢
  exact (expandTop_continues (e := { t with isSurveyed := false }) hdrop.layered w).after hdrop
    fun e' he' => hdrop.trans he'

/-- Any path can be placed; if it belongs somewhere, the item is that of a file. -/
theorem ensureFile_continues (h : e.forest.IsLayered) (w : Workspace) (path : String) :
    Proceeds e.forest (fun r => e.forest.Continues r.2.forest ∧
      ∀ n, r.1 = some n → ∃ i, r.2.forest.item? n = some i ∧ i.kind = .file)
      (e.ensureFile w path) := by
  generalize hdirectory : Path.directoryPart (Path.canonical w.cwd path) = directory
  have hforest := forest_lookedUp e w directory
  generalize hlook : e.lookedUp w directory = found at hforest
  obtain ⟨owner, s⟩ := found
  simp only at hforest
  rw [ensureFile_eq e w path rfl hdirectory hlook, ← hforest]
  rw [← hforest] at h
  cases owner <|> s.folderAround w directory with
  | none => exact .ok ⟨.refl h, fun n hn => absurd hn (by simp)⟩
  | some root =>
      simp only
      split
      · exact .ok ⟨.refl h, fun n hn => absurd hn (by simp)⟩
      · have hroot := isRoot_rootContainer w s.conventions owner.isSome root
        have hlabelled := forest_labelled s w owner.isSome root
        rw [← hlabelled] at h ⊢
        generalize s.labelled w owner.isSome root = t at h ⊢
        generalize rootContainer w s.conventions owner.isSome root = k at hroot ⊢
        refine (ensure_continues h w (show t.forest.ownerAt .top = some none from rfl)
          (Kind.isLeaf_eq_false_of_isRoot hroot)
          (standsLower_top (Kind.isLeaf_eq_false_of_isRoot hroot))).bind ?_
        rintro ⟨n, u⟩ ⟨hu, i, hi, hkind⟩
        rw [← hkind] at hroot
        have hlower := isChain_level_chainBelow root directory (Path.canonical w.cwd path)
        rw [← Item.level_of_isRoot hroot] at hlower
        have hchain := ensureChain_continues hu.layered w hi
          (fun k' hk' => isLeaf_of_mem_chainBelow hk') hlower
        refine (hchain.after hu fun _ hv => hv).bind ?_
        rintro ⟨m, v⟩ ⟨hv, j, hj, hlast⟩
        rw [getLastD_kind_chainBelow] at hlast
        refine .ok ⟨hu.trans hv, ?_⟩
        rintro _ ⟨⟩
        exact ⟨j, hj, hlast⟩

/-! ## Leaves -/

/-- The leaves of a file item can always be brought up to date. -/
theorem reconcile_continues (h : e.forest.IsLayered) (w : Workspace) {n : ItemNo} {i : Item}
    (hi : e.forest.item? n = some i) (hfile : i.kind = .file) {leaves : List Leaf}
    (hleaves : ∀ leaf ∈ leaves, leaf.IsGenuine) :
    Proceeds e.forest (fun r => e.forest.Continues r.2.forest) (e.reconcile w n leaves) := by
  have hidentified : ∀ leaf ∈ leaves, (leaf.item w.cwd i.location).IsIdentified :=
    fun leaf hleaf => (hleaves leaf hleaf).isIdentified_item w.cwd i.location
  have hlower : ∀ leaf ∈ leaves, StandsLower (some i) (leaf.item w.cwd i.location) :=
    fun leaf hleaf => standsLower_leaf hfile ((hleaves leaf hleaf).isLeaf_item w.cwd i.location)
      (leaf.location_item w.cwd i.location).symm
  rcases reconcile_cases_encoding e w n leaves with hsame | ⟨err, herror, herr⟩
  · obtain ⟨r, g, hreconcile, hg, hdone⟩ :=
      Forest.reconcile_spec h hi hleaves hidentified hlower
    rw [hsame, reconcile_of_forest hreconcile]
    exact .ok ⟨hg, hdone.keeps⟩
  · rw [herror]
    exact .error herr (.refl h)

end Serving

end Explorer

end TestAtlas
