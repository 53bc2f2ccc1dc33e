import TestAtlas.Proofs.Explorer.Session

/-!
# The shape of the tree

Whatever calls are made, in whatever order they are settled, and however the files change meanwhile,
the tree keeps its shape: every item is found under its own identifier at one place, roots are at
the top, packages strictly below their root, files in their directory and leaves below their file.
The main statement is `Session.Arises.isWellPlaced`.
-/

namespace TestAtlas

open TestAtlas.Path

/-- The judgement that asks only that owners lie at or above what they own.  It holds in every
workspace. -/
def Judgement.loose : Judgement where
  owns := fun d o => ∀ m, o = some m → IsLocation m ∧ isAtOrBelow d m = true
  named := fun _ _ => True

theorem Judgement.holds_loose (w : Workspace) (c : Conventions) : Judgement.loose.Holds w c where
  inherited :=
    { manifest := by
        intro d hd _ m hm
        rw [← Option.some.inj hm]
        exact ⟨hd, isAtOrBelow_refl d⟩
      root := by
        intro _ m hm
        exact absurd hm (by simp)
      below := by
        intro d s o hd hs _ howns m hm
        obtain ⟨hloc, hin⟩ := howns m hm
        exact ⟨hloc, isAtOrBelow_trans (hd.below hs) hd hloc (isAtOrBelow_below_self hd hs) hin⟩ }
  above := fun d m _ howns => howns m rfl
  labelled := fun _ => trivial

/-- The item is at the place where items of its kind and location stand, and nowhere else. -/
structure Item.IsWellPlaced (cwd : String) (f : Forest) (n : ItemNo) (i : Item) (place : Place) :
    Prop where
  once : ∀ p, n ∈ f.members p ↔ p = place
  found : f.find? place i.id = some n
  parent : f.parent? n = place.owner
  identified : Id.build cwd i.location i.kind.word i.name = .ok i.id
  canonical : Path.canonical cwd i.location = i.location
  root : i.kind.isRoot = true → place = .top
  package : i.kind = .package → ∃ m r, place = .under m ∧ f.item? m = some r ∧
    r.kind.isRoot = true ∧ isAtOrBelow i.location r.location = true ∧ i.location ≠ r.location
  file : i.kind = .file → ∃ m p, place = .under m ∧ f.item? m = some p ∧
    (p.kind.isRoot = true ∨ p.kind = .package) ∧ directoryPart i.location = p.location
  leaf : i.kind.isLeaf = true → f.children n = [] ∧ ∃ m p, place = .under m ∧
    f.item? m = some p ∧ p.kind = .file ∧ i.location = p.location

namespace Forest

variable {cwd : String} {c : Conventions} {J : Judgement} {folders : List String} {f : Forest}

/-- In a forest in order, every item of the tree is where it belongs. -/
theorem isWellPlaced_of_inTree (h : f.IsOrderly cwd (Belongs c J folders)) {n : ItemNo}
    (hn : f.InTree n) : ∃ i place, f.item? n = some i ∧ i.IsWellPlaced cwd f n place := by
  obtain ⟨i, hi⟩ := h.exists_item_of_inTree hn
  have hgenuine := h.genuine n i hi
  obtain ⟨place, hmem⟩ : ∃ place, n ∈ f.members place := by
    cases hn with
    | top hmem => exact ⟨.top, hmem⟩
    | under _ hmem => exact ⟨_, hmem⟩
  have hheld := (h.consistent.holds place n).mp hmem
  -- the forest remembers one holder for each item, so one place only has it
  have honce : ∀ p, n ∈ f.members p ↔ p = place := by
    intro p
    rw [h.consistent.holds p n, hheld, Option.some.injEq, eq_comm]
  refine ⟨i, place, hi, ?_⟩
  constructor
  · exact honce
  · refine (find?_eq_some_iff h.consistent place i.id n).mpr ⟨hmem, ?_⟩
    rw [idOf?, hi]
    rfl
  · rw [parent?, hheld, Option.bind_some]
  · rw [Id.build_word]
    exact hgenuine.identified
  · exact canonical_of_isLocation hgenuine.location cwd
  · intro hk
    exact ((honce .top).mp (h.root_stands hn hi hk).1).symm
  · intro hk
    obtain ⟨m, r, -, hchild, hr, hroot, hreach, hne, -⟩ := h.package_stands hn hi hk
    exact ⟨m, r, ((honce _).mp hchild).symm, hr, hroot,
      (hreach.isAtOrBelow (h.genuine m r hr).location).2, hne⟩
  · intro hk
    obtain ⟨m, p, -, hchild, hp, hkind, hdirectory, -⟩ := h.file_stands hn hi hk
    exact ⟨m, p, ((honce _).mp hchild).symm, hp, hkind, hdirectory⟩
  · intro hk
    obtain ⟨m, p, -, hchild, hp, hkind, hlocation⟩ := h.leaf_stands hn hi hk
    exact ⟨children_of_isLeaf h hi hk, m, p, ((honce _).mp hchild).symm, hp, hkind, hlocation⟩

end Forest

/-- However the files change, a session that comes about is in order by the loose judgement. -/
theorem Session.Arises.isOrderly_loose {cwd : String} {c : Conventions} {s : Session}
    (h : Session.Arises (fun w => w.IsInMemory ∧ w.cwd = cwd) c s) :
    s.IsOrderly cwd .loose ∧ s.explorer.conventions = c :=
  h.isOrderly fun w hw => ⟨hw.1, hw.2, Judgement.holds_loose w c⟩

/-- In every session that can come about while the files change in any way, every item of the tree
is well placed, and a step is only ever refused for an item that is not in the tree. -/
theorem Session.Arises.isWellPlaced {cwd : String} {c : Conventions} {s : Session}
    (h : Session.Arises (fun w => w.IsInMemory ∧ w.cwd = cwd) c s) :
    (∀ n, s.explorer.forest.InTree n → ∃ i place, s.explorer.forest.item? n = some i ∧
      i.IsWellPlaced cwd s.explorer.forest n place) ∧
    ∀ w p m err, w.IsInMemory → w.cwd = cwd → s.step w p m = .error err →
      ∃ n id, m = .call (.expand n) ∧ ¬ s.explorer.forest.InTree n ∧ err = .unknownItem id := by
  obtain ⟨hs, hc⟩ := h.isOrderly_loose
  refine ⟨fun n hn => Forest.isWellPlaced_of_inTree hs.explorer.forest hn, ?_⟩
  rintro w p m err hmemory rfl herr
  -- a step that is refused was stray, for any other succeeds
  have hstray : s.IsStray m := by
    by_contra hm
    obtain ⟨t, hok, -⟩ := step_spec hmemory (hc ▸ Judgement.holds_loose w c) hs p hm
    exact absurd (herr.symm.trans hok) (by simp)
  obtain ⟨id, hrefused⟩ := step_of_isStray hs p hstray
  rw [herr, Except.error.injEq] at hrefused
  cases m with
  | settle k => exact hstray.elim
  | call request =>
      cases request with
      | expand n => exact ⟨n, id, rfl, hstray, hrefused⟩
      | expandTop | update | fileCreated | fileDeleted | foldersChanged => exact hstray.elim

/-- A file below a package is well placed, once the items above it were filled in. -/
theorem Session.Arises.isWellPlaced_file :
    ∃ s n i place, Session.Arises (fun w => w.IsInMemory ∧ w.cwd = "/") .usual s ∧
      s.explorer.forest.item? n = some i ∧ i.kind = .file ∧ s.explorer.forest.InTree n ∧
      i.IsWellPlaced "/" s.explorer.forest n place := by
  let w := Workspace.holding "/" [("/a/go.mod", ""), ("/a/b/x_test.go", "")]
  have hw : w.IsInMemory := Workspace.isInMemory_holding (by decide) _
  -- the module, its package, and the file in that
  have hview : ((ofExplorer (.start w .usual ["/a"])).run w .silent
      [.call .expandTop, .call (.expand 0), .call (.expand 1)]).toOption.map (fun s =>
        (s.explorer.forest.top, s.explorer.forest.children 0, s.explorer.forest.children 1,
          (s.explorer.forest.item? 2).map Item.kind)) = some ([0], [1], [2], some .file) := by
    decide +kernel
  obtain ⟨s, hrun, hview⟩ := exists_ok_of_view hview
  simp only [Prod.mk.injEq, Option.map_eq_some_iff] at hview
  obtain ⟨htop, hpackage, hfile, j, hj, hkind⟩ := hview
  have hs : Session.Arises (fun w => w.IsInMemory ∧ w.cwd = "/") .usual s :=
    (Session.Arises.start ["/a"] ⟨hw, rfl⟩).run ⟨hw, rfl⟩ .silent hrun
  have hn : s.explorer.forest.InTree 2 := by
    have h0 : s.explorer.forest.InTree 0 := .top (by rw [htop]; simp)
    have h1 : s.explorer.forest.InTree 1 := .under h0 (by rw [hpackage]; simp)
    exact .under h1 (by rw [hfile]; simp)
  obtain ⟨i, place, hi, hplaced⟩ := (Session.Arises.isWellPlaced hs).1 2 hn
  rw [hj, Option.some.injEq] at hi
  exact ⟨s, 2, i, place, hs, hi ▸ hj, hi ▸ hkind, hn, hplaced⟩

end TestAtlas
