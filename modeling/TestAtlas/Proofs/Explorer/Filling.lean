import TestAtlas.Proofs.Explorer.Effect
import TestAtlas.Proofs.Explorer.Memory

/-!
# What filling in a place makes

To fill in a place is to make an item for each container whose identifier no item there has, and for
no other: `ensureAll_eq`.  The new items stand behind the old ones in the order of the containers,
and nothing else in the forest changes: `HasFilled.appends`.  So filling in the place once more with
the same containers makes nothing: `HasFilled.again`.
-/

namespace TestAtlas

namespace Forest

/-! ## Items put behind the others -/

/-- New items stand behind the others at a place, in order, and nothing else has changed. -/
structure Appends (f g : Forest) (place : Place) (new : List Item) : Prop where
  keeps : f.Keeps g
  made : ∀ k, g.item? (f.nodes.size + k) = new[k]?
  members : g.members place = f.members place ++ List.range' f.nodes.size new.length
  frame : ∀ p, p ≠ place → g.members p = f.members p
  holder : ∀ n, n < f.nodes.size → g.holder? n = f.holder? n

theorem holder?_putAll_of_lt {f : Forest} {place : Place} {n : ItemNo} (hn : n < f.nodes.size)
    (is : List Item) : (f.putAll place is).holder? n = f.holder? n := by
  induction is generalizing f with
  | nil => rfl
  | cons i is ih =>
      rw [putAll, ih (by rw [size_put]; exact Nat.lt_succ_of_lt hn), holder?_put,
        if_neg (Nat.ne_of_lt hn)]

theorem appends_putAll {f : Forest} {place : Place} (hplace : f.HasPlace place)
    (new : List Item) : f.Appends (f.putAll place new) place new where
  keeps := (grows_putAll hplace new).keeps
  made := item?_putAll f place new
  members := members_putAll hplace new
  frame := fun _ hp => members_putAll_of_ne hplace hp new
  holder := fun _ hn => holder?_putAll_of_lt hn new

end Forest

variable {cwd : String} {seen : List String} {ks : List Container} {k : Container}

/-! ## The containers that are missing -/

/-- The containers whose identifier is not among the given ones, of those with one identifier the
first. -/
def Container.absentFrom (cwd : String) (seen : List String) : List Container → List Container
  | [] => []
  | k :: ks =>
    if (k.item cwd).id ∈ seen then absentFrom cwd seen ks
    else k :: absentFrom cwd (seen ++ [(k.item cwd).id]) ks

namespace Container

theorem of_mem_absentFrom (h : k ∈ absentFrom cwd seen ks) :
    k ∈ ks ∧ (k.item cwd).id ∉ seen := by
  induction ks generalizing seen with
  | nil => exact absurd h (by simp [absentFrom])
  | cons first rest ih =>
      rw [absentFrom] at h
      split at h
      · obtain ⟨hmem, hnew⟩ := ih h
        exact ⟨List.mem_cons_of_mem _ hmem, hnew⟩
      · rename_i hfirst
        rcases List.mem_cons.mp h with rfl | h
        · exact ⟨List.mem_cons_self, hfirst⟩
        · obtain ⟨hmem, hnew⟩ := ih h
          exact ⟨List.mem_cons_of_mem _ hmem, fun hs => hnew (List.mem_append_left _ hs)⟩

theorem nodup_absentFrom (cwd : String) (seen : List String) (ks : List Container) :
    ((absentFrom cwd seen ks).map fun k => (k.item cwd).id).Nodup := by
  induction ks generalizing seen with
  | nil => exact List.nodup_nil
  | cons first rest ih =>
      rw [absentFrom]
      split
      · exact ih seen
      · rw [List.map_cons, List.nodup_cons]
        refine ⟨?_, ih _⟩
        intro hmem
        obtain ⟨k, hk, heq⟩ := List.mem_map.mp hmem
        apply (of_mem_absentFrom hk).2
        rw [heq]
        exact List.mem_append_right _ (List.mem_singleton_self _)

/-- Every container is either there or made. -/
theorem mem_or_mem_absentFrom (h : k ∈ ks) :
    (k.item cwd).id ∈ seen ++ (absentFrom cwd seen ks).map fun k => (k.item cwd).id := by
  induction ks generalizing seen with
  | nil => exact absurd h (by simp)
  | cons first rest ih =>
      rw [absentFrom]
      split
      · rename_i hfirst
        rcases List.mem_cons.mp h with rfl | h
        · exact List.mem_append_left _ hfirst
        · exact ih h
      · rw [List.map_cons]
        rcases List.mem_cons.mp h with rfl | h
        · exact List.mem_append_right _ List.mem_cons_self
        · rw [← List.singleton_append, ← List.append_assoc]
          exact ih h

theorem absentFrom_eq_nil (h : ∀ k ∈ ks, (k.item cwd).id ∈ seen) : absentFrom cwd seen ks = [] := by
  induction ks with
  | nil => rfl
  | cons first rest ih =>
      rw [absentFrom, if_pos (h first (by simp)), ih fun k hk => h k (by simp [hk])]

/-- What is missing stands in the order of the containers. -/
theorem absentFrom_sublist (cwd : String) (seen : List String) (ks : List Container) :
    (absentFrom cwd seen ks).Sublist ks := by
  induction ks generalizing seen with
  | nil => exact .refl _
  | cons first rest ih =>
      rw [absentFrom]
      split
      · exact (ih seen).cons first
      · exact (ih _).cons_cons first

/-- The items that are made for the containers, where some identifiers are there already. -/
def newItems (cwd : String) (seen : List String) (ks : List Container) : List Item :=
  (absentFrom cwd seen ks).map (Container.item cwd)

theorem newItems_cons_of_mem (h : (k.item cwd).id ∈ seen) :
    newItems cwd seen (k :: ks) = newItems cwd seen ks := by
  rw [newItems, absentFrom, if_pos h, newItems]

theorem newItems_cons_of_not_mem (h : (k.item cwd).id ∉ seen) :
    newItems cwd seen (k :: ks) =
      k.item cwd :: newItems cwd (seen ++ [(k.item cwd).id]) ks := by
  rw [newItems, absentFrom, if_neg h, List.map_cons, newItems]

theorem newItems_free (cwd : String) (seen : List String) (ks : List Container) :
    ∀ i ∈ newItems cwd seen ks, i.id ∉ seen := by
  intro i hi
  obtain ⟨k, hk, rfl⟩ := List.mem_map.mp hi
  exact (of_mem_absentFrom hk).2

theorem nodup_newItems (cwd : String) (seen : List String) (ks : List Container) :
    ((newItems cwd seen ks).map Item.id).Nodup := by
  rw [newItems, List.map_map]
  exact nodup_absentFrom cwd seen ks

end Container

namespace Explorer

variable {w : Workspace} {e e' : Explorer} {place : Place}

/-- A place was filled in with containers: those that were missing were made, in order, and but for
the events reported nothing else changed. -/
structure HasFilled (cwd : String) (e e' : Explorer) (place : Place) (ks : List Container) :
    Prop where
  forest : e'.forest = e.forest.putAll place (Container.newItems cwd (e.forest.ids place) ks)
  conventions : e'.conventions = e.conventions
  documents : e'.documents = e.documents
  survey : e.KeepsSurvey e'

theorem ids_planted (h : e.forest.IsConsistent) (hplace : e.forest.HasPlace place)
    (k : Container) :
    (e.planted cwd place k).forest.ids place = e.forest.ids place ++ [(k.item cwd).id] :=
  Forest.ids_put h hplace (k.item cwd)

/-- Containers can be filled in at every place there is. -/
theorem ensureAll_eq (h : e.forest.IsConsistent) (hplace : e.forest.HasPlace place)
    (hks : ∀ k ∈ ks, k.kind.isLeaf = false) :
    ∃ e', e.ensureAll w place ks = .ok e' ∧ HasFilled w.cwd e e' place ks := by
  induction ks generalizing e with
  | nil => exact ⟨e, rfl, rfl, rfl, rfl, KeepsSurvey.refl e⟩
  | cons k ks ih =>
      have hk := hks k (by simp)
      have hrest : ∀ k' ∈ ks, k'.kind.isLeaf = false := fun k' hk' => hks k' (by simp [hk'])
      cases hfind : e.forest.find? place (k.item w.cwd).id with
      | some n =>
          obtain ⟨e', hall, hfilled⟩ := ih h hplace hrest
          have hthere : (k.item w.cwd).id ∈ e.forest.ids place := by
            obtain ⟨hn, hid⟩ := Forest.of_find?_eq_some hfind
            exact Forest.mem_ids.mpr ⟨n, hn, hid⟩
          refine ⟨e', ?_, ?_, hfilled.conventions, hfilled.documents, hfilled.survey⟩
          · rw [ensureAll, ensure_of_find?_eq hk hfind]
            exact hall
          · rw [Container.newItems_cons_of_mem hthere]
            exact hfilled.forest
      | none =>
          have hput := h.put hplace hfind
          obtain ⟨e', hall, hfilled⟩ :=
            ih (e := e.planted w.cwd place k) hput (Forest.hasPlace_put hplace _ _) hrest
          have hfree := (e.forest.find?_eq_none_iff_not_mem_ids place _).mp hfind
          refine ⟨e', ?_, ?_, hfilled.conventions, hfilled.documents,
            hfilled.survey.isSurveyed, hfilled.survey.folders, hfilled.survey.owners⟩
          · rw [ensureAll, ensure_of_find?_eq_none h hk hfind]
            exact hall
          · rw [hfilled.forest, ids_planted h hplace, Container.newItems_cons_of_not_mem hfree]
            rfl

namespace HasFilled

theorem appends (h : HasFilled cwd e e' place ks) (hplace : e.forest.HasPlace place) :
    e.forest.Appends e'.forest place (Container.newItems cwd (e.forest.ids place) ks) := by
  rw [h.forest]
  exact Forest.appends_putAll hplace _

theorem isConsistent (h : HasFilled cwd e e' place ks) (he : e.forest.IsConsistent)
    (hplace : e.forest.HasPlace place) : e'.forest.IsConsistent := by
  rw [h.forest]
  exact he.putAll hplace (Container.newItems_free cwd _ ks) (Container.nodup_newItems cwd _ ks)

/-- All containers are at the place then. -/
theorem mem_ids (h : HasFilled cwd e e' place ks) (he : e.forest.IsConsistent)
    (hplace : e.forest.HasPlace place) {k : Container} (hk : k ∈ ks) :
    (k.item cwd).id ∈ e'.forest.ids place := by
  rw [h.forest, Forest.ids_putAll he hplace (Container.newItems_free cwd _ ks)
    (Container.nodup_newItems cwd _ ks), Container.newItems, List.map_map]
  exact Container.mem_or_mem_absentFrom hk

/-- To fill in a place with containers that are all there changes nothing. -/
theorem again (h : HasFilled cwd e e' place ks)
    (hks : ∀ k ∈ ks, (k.item cwd).id ∈ e.forest.ids place) : e'.forest = e.forest := by
  rw [h.forest, Container.newItems, Container.absentFrom_eq_nil hks]
  rfl

end HasFilled

/-! ## The top items -/

/-- The roots of the folders, and the survey after they were looked for. -/
def roots (e : Explorer) (w : Workspace) : List Container × Survey :=
  (e.surveyed w).survey.buildRoots w (e.surveyed w).conventions (e.surveyed w).folders

/-- The explorer after it has looked for the roots of its folders. -/
def lookedForRoots (e : Explorer) (w : Workspace) : Explorer :=
  { e.surveyed w with survey := (e.roots w).2 }

@[simp]
theorem forest_lookedForRoots (e : Explorer) (w : Workspace) :
    (e.lookedForRoots w).forest = e.forest :=
  forest_surveyed e w

/-- To fill in the top items is to fill in the top with the roots of the folders. -/
theorem expandTop_eq (h : e.forest.IsConsistent) (w : Workspace) :
    ∃ e', e.expandTop w = .ok e' ∧
      HasFilled w.cwd (e.lookedForRoots w) e' .top (e.roots w).1 := by
  refine ensureAll_eq (e := e.lookedForRoots w) ?_ trivial fun k hk => ?_
  · rw [forest_lookedForRoots]
    exact h
  · exact Kind.isLeaf_eq_false_of_isRoot (Survey.isRoot_of_mem_buildRoots hk)

/-! ## Below a root and below a package -/

/-- The packages and the files of a root, and the survey after they were looked for. -/
def rootContents (e : Explorer) (w : Workspace) (item : Item) : List String × List String × Survey :=
  (e.surveyed w).survey.rootChildren w (e.surveyed w).conventions item.location (ownerOfRoot item)

/-- The containers that stand below a root: its packages, then its files. -/
def rootContainers (e : Explorer) (w : Workspace) (item : Item) : List Container :=
  (e.rootContents w item).1.map (.plain .package) ++ (e.rootContents w item).2.1.map (.plain .file)

/-- The explorer after it has looked for what stands below a root. -/
def lookedBelowRoot (e : Explorer) (w : Workspace) (item : Item) : Explorer :=
  { e.surveyed w with survey := (e.rootContents w item).2.2 }

@[simp]
theorem forest_lookedBelowRoot (e : Explorer) (w : Workspace) (item : Item) :
    (e.lookedBelowRoot w item).forest = e.forest :=
  forest_surveyed e w

theorem expandRoot_eq (h : e.forest.IsConsistent) (w : Workspace) {n : ItemNo} {item : Item}
    (hi : e.forest.item? n = some item) : ∃ e', e.expandRoot w n item = .ok e' ∧
      HasFilled w.cwd (e.lookedBelowRoot w item) e' (.under n) (e.rootContainers w item) := by
  refine ensureAll_eq (e := e.lookedBelowRoot w item) ?_ ?_ fun k hk => ?_
  · rw [forest_lookedBelowRoot]
    exact h
  · rw [forest_lookedBelowRoot]
    exact Forest.lt_size_of_item? hi
  · rcases List.mem_append.mp hk with hk | hk
    · obtain ⟨d, -, rfl⟩ := List.mem_map.mp hk
      rfl
    · obtain ⟨f, -, rfl⟩ := List.mem_map.mp hk
      rfl

/-- The containers that stand below a package: the test files in its directory. -/
def packageContainers (e : Explorer) (w : Workspace) (item : Item) : List Container :=
  (e.survey.packageFiles w e.conventions item.location).1.map (.plain .file)

/-- The explorer after it has looked for what stands below a package. -/
def lookedBelowPackage (e : Explorer) (w : Workspace) (item : Item) : Explorer :=
  { e with survey := (e.survey.packageFiles w e.conventions item.location).2 }

theorem expandPackage_eq (h : e.forest.IsConsistent) (w : Workspace) {n : ItemNo} {item : Item}
    (hi : e.forest.item? n = some item) : ∃ e', e.expandPackage w n item = .ok e' ∧
      HasFilled w.cwd (e.lookedBelowPackage w item) e' (.under n)
        (e.packageContainers w item) := by
  refine ensureAll_eq (e := e.lookedBelowPackage w item) h (Forest.lt_size_of_item? hi)
    fun k hk => ?_
  obtain ⟨f, -, rfl⟩ := List.mem_map.mp hk
  rfl

end Explorer

end TestAtlas
