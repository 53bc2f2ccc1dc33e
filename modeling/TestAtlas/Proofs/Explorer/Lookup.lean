import TestAtlas.Proofs.Explorer.Safety

/-!
# Files and their leaves are found together

In a layered tree the children of a file are leaves at the location of the file, and a leaf has no
children.  So whoever looks up a path finds a file with all of its leaves right behind it, and no
leaf without its file: `FindsLeaves`.  Every session that comes about has such a tree, and the main
statement, `lookup_inPreorder`, says this together with what a walk gives in any tree.
-/

namespace TestAtlas

theorem Item.level_le (i : Item) : i.level ≤ 3 := by
  unfold Item.level
  cases i.kind <;> decide

/-- What stands lower than a file is a leaf. -/
theorem Item.isLeaf_of_level {p i : Item} (hfile : p.kind = .file) (h : p.level < i.level) :
    i.kind.isLeaf = true := by
  rw [Item.level, hfile] at h
  unfold Item.level at h
  cases hk : i.kind <;> rw [hk] at h <;> first | rfl | exact absurd h (by decide)

namespace Forest

variable {f : Forest}

namespace IsLayered

theorem isTree (h : f.IsLayered) : f.IsTree :=
  h.consistent.isTree (h.isRanked StandsLower.level_lt)

/-- What a file holds are leaves at its location. -/
theorem leaf_of_mem_children (h : f.IsLayered) {m n : ItemNo} {p : Item} (hn : n ∈ f.children m)
    (hp : f.item? m = some p) (hfile : p.kind = .file) :
    ∃ i, f.item? n = some i ∧ i.kind.isLeaf = true ∧ i.location = p.location := by
  obtain ⟨i, hi, hlower⟩ := h.of_mem_children hn hp
  have hleaf := Item.isLeaf_of_level hfile hlower.level_lt
  obtain ⟨q, hq, -, hlocation⟩ := hlower.leaf hleaf
  rw [Option.some.inj hq]
  exact ⟨i, hi, hleaf, hlocation.symm⟩

/-- Below a leaf there is nothing further down. -/
theorem children_of_isLeaf (h : f.IsLayered) {n : ItemNo} {i : Item} (hi : f.item? n = some i)
    (hleaf : i.kind.isLeaf = true) : f.children n = [] := by
  refine List.eq_nil_iff_forall_not_mem.mpr fun k hk => ?_
  obtain ⟨j, -, hlower⟩ := h.of_mem_children hk hi
  have hlt := hlower.level_lt
  rw [Item.level_of_isLeaf hleaf] at hlt
  have hle := j.level_le
  omega

/-- A leaf that is held is held by a file at its location. -/
theorem file_of_isLeaf (h : f.IsLayered) {place : Place} {n : ItemNo} {i : Item}
    (hn : n ∈ f.members place) (hi : f.item? n = some i) (hleaf : i.kind.isLeaf = true) :
    ∃ m p, place = .under m ∧ f.item? m = some p ∧ p.kind = .file ∧ p.location = i.location := by
  obtain ⟨j, owner, hj, howner, hlower⟩ := h.of_mem hn
  obtain rfl : i = j := Option.some.inj (hi.symm.trans hj)
  obtain ⟨p, rfl, hfile, hlocation⟩ := hlower.leaf hleaf
  cases place with
  | top => exact absurd howner (by simp [ownerAt])
  | loose k => exact absurd howner (by simp [ownerAt])
  | under m =>
      obtain ⟨q, hq, hsome⟩ := Option.map_eq_some_iff.mp howner
      obtain rfl : q = p := Option.some.inj hsome
      exact ⟨m, q, rfl, hq, hfile, hlocation⟩

/-- The walk below a file comes by its leaves and nothing else. -/
theorem walk_file (h : f.IsLayered) {m : ItemNo} {p : Item} (hp : f.item? m = some p)
    (hfile : p.kind = .file) : f.walk (.under m) = f.children m := by
  have hbelow : ∀ n ∈ f.children m, n :: f.walk (.under n) = [n] := by
    intro n hn
    obtain ⟨i, hi, hleaf, -⟩ := h.leaf_of_mem_children hn hp hfile
    have hnone : f.members (.under n) = [] := h.children_of_isLeaf hi hleaf
    rw [h.isTree.walk_eq, hnone]
    rfl
  have hwalk : f.walk (.under m) = (f.children m).flatMap fun n => n :: f.walk (.under n) :=
    h.isTree.walk_eq (.under m)
  rw [hwalk, List.flatMap_congr hbelow, List.flatMap_singleton']

end IsLayered

end Forest

namespace Explorer

/-- Under a path a file is found with all of its leaves, and no leaf without its file. -/
structure FindsLeaves (w : Workspace) (path : String) (e : Explorer) : Prop where
  /-- A leaf is found exactly when it is held by a file that is found. -/
  leaf_iff : ∀ n i, e.forest.item? n = some i → i.kind.isLeaf = true →
    (n ∈ e.find w path ↔ ∃ m p, n ∈ e.forest.children m ∧ e.forest.item? m = some p ∧
      p.kind = .file ∧ m ∈ e.find w path)
  /-- What a file that is found holds are leaves, and they follow it in order. -/
  follow : ∀ m p, m ∈ e.find w path → e.forest.item? m = some p → p.kind = .file →
    (∀ n ∈ e.forest.children m, ∃ i, e.forest.item? n = some i ∧ i.kind.isLeaf = true) ∧
    ∃ before after, e.find w path = before ++ m :: (e.forest.children m ++ after)

theorem findsLeaves_of_isLayered {e : Explorer} (h : e.forest.IsLayered) (w : Workspace)
    (path : String) : e.FindsLeaves w path where
  leaf_iff := by
    intro n i hi hleaf
    constructor
    · intro hfound
      obtain ⟨hn, j, hj, hlocation⟩ := (mem_find_iff h w path n).mp hfound
      obtain rfl : i = j := Option.some.inj (hi.symm.trans hj)
      cases hn with
      | top hmem =>
          have hheld : n ∈ e.forest.members .top := hmem
          obtain ⟨_, _, hplace, -⟩ := h.file_of_isLeaf hheld hi hleaf
          exact absurd hplace (by simp)
      | @under m _ hm hmem =>
          obtain ⟨_, p, hplace, hp, hfile, hsame⟩ := h.file_of_isLeaf hmem hi hleaf
          obtain rfl := Place.under.inj hplace
          exact ⟨m, p, hmem, hp, hfile,
            (mem_find_iff h w path m).mpr ⟨hm, p, hp, hsame.trans hlocation⟩⟩
    · rintro ⟨m, p, hmem, hp, hfile, hfound⟩
      obtain ⟨hm, q, hq, hlocation⟩ := (mem_find_iff h w path m).mp hfound
      obtain rfl : p = q := Option.some.inj (hp.symm.trans hq)
      obtain ⟨j, hj, -, hsame⟩ := h.leaf_of_mem_children hmem hp hfile
      exact (mem_find_iff h w path n).mpr ⟨.under hm hmem, j, hj, hsame.trans hlocation⟩
  follow := by
    intro m p hm hp hfile
    have hleaves : ∀ n ∈ e.forest.children m,
        ∃ i, e.forest.item? n = some i ∧ i.kind.isLeaf = true ∧ i.location = p.location :=
      fun n hn => h.leaf_of_mem_children hn hp hfile
    obtain ⟨hwalk, q, hq, hlocation⟩ := (Forest.mem_locatedAt_iff w.cwd .top path m).mp hm
    obtain rfl : p = q := Option.some.inj (hp.symm.trans hq)
    refine ⟨fun n hn => ?_, ?_⟩
    · obtain ⟨i, hi, hleaf, -⟩ := hleaves n hn
      exact ⟨i, hi, hleaf⟩
    · -- the walk goes through the leaves next, and they have the location of the file
      obtain ⟨before, after, hsplit⟩ := h.isTree.exists_walk_eq hwalk
      rw [h.walk_file hp hfile] at hsplit
      let kept : ItemNo → Bool := fun n =>
        (e.forest.item? n).any fun i => i.location == Path.canonical w.cwd path
      have hkept : ∀ n ∈ m :: e.forest.children m, kept n = true := by
        intro n hn
        simp only [kept]
        rcases List.mem_cons.mp hn with rfl | hn
        · rw [hp, Option.any_some, beq_iff_eq]
          exact hlocation
        · obtain ⟨i, hi, -, hsame⟩ := hleaves n hn
          rw [hi, Option.any_some, beq_iff_eq]
          exact hsame.trans hlocation
      have hfind : e.find w path = (e.forest.walk .top).filter kept := rfl
      refine ⟨before.filter kept, after.filter kept, ?_⟩
      rw [hfind, hsplit, List.filter_append, ← List.cons_append, List.filter_append,
        List.filter_eq_self.mpr hkept, List.cons_append]

end Explorer

/-- In every finite tree the walk from a place comes by each item there and below exactly once, in
the order of the recursion, and what is found at a path are those of its location.  In every session
that comes about the items are such a tree, and under each path a file is found with all its leaves
right behind it, and no leaf without its file. -/
theorem lookup_inPreorder :
    (∀ f : Forest, f.IsTree → ∀ cwd place, f.IsLookedUp cwd place) ∧
    ∀ (c : Conventions) (s : Session), Session.Arises (fun _ => True) c s →
      s.explorer.forest.IsTree ∧ ∀ w path, s.explorer.FindsLeaves w path := by
  refine ⟨fun f h => h.isLookedUp, fun c s h => ?_⟩
  have hlayered := h.isSafe.layered
  exact ⟨hlayered.isTree, Explorer.findsLeaves_of_isLayered hlayered⟩

/-- A file with two tests is filled in and looked up. -/
theorem lookup_inPreorder_twoTests :
    let w := Workspace.holding "/"
      [("/a/x_test.go", "package a\n\nfunc TestA() \x7b\x7d\n\nfunc TestB() \x7b\x7d\n")]
    ∃ s : Session, Session.Arises (fun _ => True) .usual s ∧
      s.explorer.find w "/a//x_test.go" = [1, 2, 3] ∧ s.explorer.FindsLeaves w "/a//x_test.go" ∧
      s.explorer.forest.walk .top = [0, 1, 2, 3] ∧ s.explorer.forest.IsLookedUp "/" .top := by
  intro w
  have hview : ((Session.ofExplorer (.start w .usual ["/a"])).run w .scanner [.call .expandTop,
      .call (.expand 0), .call (.expand 1), .settle 2]).toOption.map (fun s =>
        (s.explorer.find w "/a//x_test.go", s.explorer.forest.walk .top)) =
      some ([1, 2, 3], [0, 1, 2, 3]) := by
    decide +kernel
  obtain ⟨s, hrun, hview⟩ := exists_ok_of_view hview
  obtain ⟨hfind, hwalk⟩ := Prod.mk.inj hview
  have hs : Session.Arises (fun _ => True) .usual s :=
    (Session.Arises.start ["/a"] trivial).run trivial .scanner hrun
  obtain ⟨hlookup, hsessions⟩ := lookup_inPreorder
  obtain ⟨htree, hleaves⟩ := hsessions .usual s hs
  exact ⟨s, hs, hfind, hleaves w _, hwalk, hlookup _ htree "/" .top⟩

end TestAtlas
